import QtMigration.Proofs.Frame.Api
import QtMigration.Proofs.Line.Paren

/-!
# Proofs/Api/Dialog — where the first element of a dialog's answer is taken

The parenthesis that closes a dialog's call is looked for behind the name of the call, dot included. **That is
behind the call exactly if nothing else stands behind it** (`fileDialogLine_takes_first_iff`), or only what is
to be put there.
-/

namespace QtMigration

open List

variable {call line : Text}

def ParenPair (line : Text) (opening closing : Nat) : Prop :=
  ∃ front o inner c back, (scan line).tokens = front ++ o :: (inner ++ c :: back) ∧ o.text = ['('] ∧ Balanced inner ∧
    c.text = [')'] ∧ line.offset o.start = opening ∧ line.offset c.start = closing

/-- **A call of a dialog for a file name**, with its pair of parentheses, in a line of code. -/
structure DialogCall (line : Text) where
  before : Text
  call : Text
  args : Text
  behind : Text
  isCode : line.isCode = true
  unfiltered : line.has "AndFilter" = false
  call_mem : call ∈ nameCalls
  text_eq : line.trimRight = before ++ call ++ '(' :: (args ++ ')' :: behind)
  pair : ParenPair line.trimRight (before ++ call).length (before ++ call ++ '(' :: args).length

def DialogCall.firstTaken {line : Text} (d : DialogCall line) : Text :=
  d.before ++ d.call ++ '(' :: (d.args ++ ')' :: ("[0]" ++ d.behind)) ++ "\n"

/-! ## The search -/

theorem dotted_of_mem_nameCalls (h : call ∈ nameCalls) : call.Dotted ∧ '\n' ∉ call := by
  simp only [nameCalls, mem_cons, not_mem_nil, or_false] at h
  rcases h with rfl | rfl | rfl
  all_goals exact ⟨⟨'g', _, rfl, rfl, by decide⟩, by decide⟩

theorem text_ne_of_mem_nameCalls (h : call ∈ nameCalls) (s : Text) :
    ∀ t ∈ (scan s).tokens, t.text ≠ call := by
  rintro t ht rfl
  obtain ⟨hd, ho⟩ := dotted_of_mem_nameCalls h
  exact ho ((scan_placed s).undotted t ht hd)

theorem closingParen_of_mem_nameCalls (h : call ∈ nameCalls) (s : Text) :
    s.closingParen call = (scan s).fault.elim (.ok (s.length, s.length)) fun f => .error (.tokens f) := by
  have hne : call.isEmpty = false := by
    obtain ⟨⟨c, rest, rfl, -⟩, -⟩ := dotted_of_mem_nameCalls h
    rfl
  rw [Text.closingParen, closingParenGo_of_absent _ _ hne rfl (text_ne_of_mem_nameCalls h s)]
  cases (scan s).fault <;> rfl

theorem has_fileName_of_mem_nameCalls (h : call ∈ nameCalls) : ("FileName" : Text) <:+: call := by
  simp only [nameCalls, mem_cons, not_mem_nil, or_false] at h
  rcases h with rfl | rfl | rfl
  all_goals exact Text.has_iff_infix.mp (by decide)

theorem fileDialogLine_eq (d : DialogCall line) : fileDialogLine line =
      if countReferences (line.trimRight.firstPiece "=") = 2 then .ok line
      else (scan line.trimRight).fault.elim (.ok (line.trimRight ++ "[0]" ++ "\n")) fun f => .error (.tokens f) := by
  have hc : line.has d.call := by
    refine Text.has_iff_infix.mpr (List.IsInfix.trans ?_ (Text.trimRight_isPrefix line).isInfix)
    rw [d.text_eq]
    exact ⟨d.before, _, rfl⟩
  have hn : line.has "FileName" := Text.has_iff_infix.mpr
    ((has_fileName_of_mem_nameCalls d.call_mem).trans (Text.has_iff_infix.mp hc))
  obtain ⟨call, hf⟩ : ∃ call, nameCalls.find? line.has = some call :=
    Option.isSome_iff_exists.mp (find?_isSome.mpr ⟨d.call, d.call_mem, hc⟩)
  rw [fileDialogLine, d.isCode, d.unfiltered, hn, hf, if_neg (by simp), if_neg (by simp), if_pos rfl]
  dsimp only
  by_cases ht : countReferences (line.trimRight.firstPiece "=") = 2
  · rw [if_pos ht, if_pos (beq_iff_eq.mpr ht)]
  · rw [if_neg ht, if_neg (mt beq_iff_eq.mp ht), closingParen_of_mem_nameCalls (mem_of_find?_eq_some hf)]
    cases (scan line.trimRight).fault with
    | none =>
      have hta : line.trimRight.take (line.trimRight.length + 1) = line.trimRight :=
        take_of_length_le (Nat.le_succ _)
      have hd : line.trimRight.drop (line.trimRight.length + 1) = [] := drop_of_length_le (Nat.le_succ _)
      have he : takeFirstAt line.trimRight line.trimRight.length = line.trimRight ++ "[0]" ++ "\n" := by
        rw [takeFirstAt, hta, hd, append_nil]
      exact congrArg Except.ok he
    | some f => rfl

/-! ## The end of the line -/

theorem replicate_of_append_zero : ∀ {behind : Text}, behind ++ "[0]" = "[0]" ++ behind →
    ∃ k, behind = (List.replicate k ("[0]" : Text)).flatten
  | [], _ => ⟨0, rfl⟩
  | [a], h => by
    obtain ⟨rfl, h⟩ := cons.inj h
    exact absurd (cons.inj h).1 (by decide)
  | [a, b], h => by
    obtain ⟨rfl, h⟩ := cons.inj h
    obtain ⟨rfl, h⟩ := cons.inj h
    exact absurd (cons.inj h).1 (by decide)
  | a :: b :: c :: rest, h => by
    obtain ⟨rfl, h⟩ := cons.inj h
    obtain ⟨rfl, h⟩ := cons.inj h
    obtain ⟨rfl, h⟩ := cons.inj h
    obtain ⟨k, hk⟩ := @replicate_of_append_zero rest h
    exact ⟨k + 1, by rw [hk]; rfl⟩

theorem append_zero_eq_iff {behind : Text} :
    behind ++ "[0]" = "[0]" ++ behind ↔ ∃ k, behind = (List.replicate k ("[0]" : Text)).flatten := by
  refine ⟨replicate_of_append_zero, ?_⟩
  rintro ⟨k, rfl⟩
  calc (List.replicate k ("[0]" : Text)).flatten ++ "[0]"
      = (List.replicate (k + 1) ("[0]" : Text)).flatten := by rw [replicate_succ', flatten_concat]
    _ = "[0]" ++ (List.replicate k ("[0]" : Text)).flatten := by rw [replicate_succ, flatten_cons]

theorem Text.trimRight_trimRight (s : Text) : s.trimRight.trimRight = s.trimRight := by
  rw [Text.trimRight, Text.trimRight, Text.trimRightWhile, Text.trimRightWhile, reverse_reverse]
  cases h : s.reverse.dropWhile Text.isBlank with
  | nil => rfl
  | cons c rest =>
    have hh := head?_dropWhile_not Text.isBlank s.reverse
    rw [h] at hh
    rw [dropWhile_cons_of_neg (by simpa using hh)]

theorem DialogCall.firstTaken_ne (d : DialogCall line) : d.firstTaken ≠ line := by
  intro h
  have hp : Text.isBlank ')' = false := by decide
  have hb : Text.isBlank ']' = false := by decide
  have ht : line.trimRight = d.before ++ d.call ++ '(' :: d.args ++ [')'] ++ d.behind := by simp [d.text_eq]
  have hbe : d.behind.trimRight = d.behind := by
    have hi := Text.trimRight_trimRight line
    rw [ht, Text.trimRight_append hp] at hi
    exact append_cancel_left hi
  have hli : line = d.before ++ d.call ++ '(' :: d.args ++ ")[0" ++ [']'] ++ (d.behind ++ ['\n']) := by
    refine h.symm.trans ?_
    simp [firstTaken]
  have hlo := congrArg Text.trimRight hli
  rw [Text.trimRight_append hb, Text.trimRight_append_blank (by decide), hbe, ht] at hlo
  have hl := congrArg List.length hlo
  simp at hl

/-- **The first element is taken behind the call exactly if** the line has not two targets, can be read, and goes on
behind the call with nothing but first elements taken. -/
theorem fileDialogLine_takes_first_iff {line : Text} (d : DialogCall line) : fileDialogLine line = .ok d.firstTaken ↔
      countReferences (line.trimRight.firstPiece "=") ≠ 2 ∧ (scan line.trimRight).fault = none ∧
        ∃ k, d.behind = (List.replicate k ("[0]" : Text)).flatten := by
  rw [fileDialogLine_eq d, ← append_zero_eq_iff]
  by_cases htwo : countReferences (line.trimRight.firstPiece "=") = 2
  · rw [if_pos htwo, Except.ok.injEq]
    exact iff_of_false d.firstTaken_ne.symm fun h => h.1 htwo
  rw [if_neg htwo]
  cases (scan line.trimRight).fault with
  | some f => exact iff_of_false nofun fun h => nomatch h.2.1
  | none =>
    have hends : line.trimRight ++ "[0]" ++ "\n" = d.firstTaken ↔ d.behind ++ "[0]" = "[0]" ++ d.behind := by
      rw [DialogCall.firstTaken, d.text_eq, List.append_left_inj]
      simp
    rw [Option.elim_none, Except.ok.injEq, hends]
    exact ⟨fun h => ⟨htwo, rfl, h⟩, fun h => h.2.2⟩

/-- A call at the end of its line. -/
theorem fileDialogLine_takes_first_last : ∃ d : DialogCall "x = d.getOpenFileName(self)\n", d.args = "self" ∧
    fileDialogLine "x = d.getOpenFileName(self)\n" = .ok d.firstTaken := by
  have htrim : Text.trimRight "x = d.getOpenFileName(self)\n" = "x = d.getOpenFileName(self)" := by decide
  let token (kind : TokenKind) (text : Text) (col : Nat) : Token :=
    ⟨kind, text, ⟨1, col⟩, ⟨1, col + text.length⟩, "x = d.getOpenFileName(self)"⟩
  have hscan : (scan "x = d.getOpenFileName(self)").fault = none ∧ (scan "x = d.getOpenFileName(self)").tokens =
      [token .word ['x'] 0, token .operator ['='] 2, token .word ['d'] 4, token .operator ['.'] 5,
        token .word "getOpenFileName" 6] ++ token .operator ['('] 21 :: ([token .word "self" 22] ++
        token .operator [')'] 26 :: [⟨.newline, [], ⟨1, 27⟩, ⟨1, 28⟩, []⟩, ⟨.finish, [], ⟨2, 0⟩, ⟨2, 0⟩, []⟩]) := by
    decide +kernel
  have hpair : ParenPair "x = d.getOpenFileName(self)" 21 26 :=
    ⟨_, _, _, _, _, hscan.2, rfl, by decide, rfl, by decide, by decide⟩
  have hcode : Text.isCode "x = d.getOpenFileName(self)\n" = true := by decide
  have hfilter : Text.has "x = d.getOpenFileName(self)\n" "AndFilter" = false := by decide
  have htargets : countReferences (Text.firstPiece "x = d.getOpenFileName(self)" "=") ≠ 2 := by decide
  let d : DialogCall "x = d.getOpenFileName(self)\n" :=
    ⟨"x = d", ".getOpenFileName", "self", [], hcode, hfilter, by decide, by rw [htrim]; decide, by rw [htrim]; exact hpair⟩
  exact ⟨d, rfl, (fileDialogLine_takes_first_iff d).mpr ⟨by rwa [htrim], by rw [htrim]; exact hscan.1, 0, rfl⟩⟩

/-- Inside another call the element of that call's result is taken. -/
theorem fileDialogLine_enclosed :
    fileDialogLine "x = str(d.getOpenFileName(self))\n" = .ok "x = str(d.getOpenFileName(self))[0]\n" := by
  decide +kernel

end QtMigration
