import QtMigration.Line.Paren
import QtMigration.Proofs.Token.Offset
import QtMigration.Proofs.Text.Words

/-!
# Proofs/Line/Paren — the parentheses that a search finds

**They are the offsets of the two parentheses exactly if each row before ends in a line break**, for the
opening one a line break before the word (`closingParen_eq_offset_iff`).
-/

namespace QtMigration

open List

variable {ts : List Token} {depth : Nat} {t : Token}

def countText (text : Text) (ts : List Token) : Nat := ts.countP (·.text == text)

/-- **No beginning closes more than it opens, and all of it closes as many.** -/
structure Balanced (ts : List Token) : Prop where
  closed_le : ∀ p, p <+: ts → countText [')'] p ≤ countText ['('] p
  settled : countText ['('] ts = countText [')'] ts

@[simp] theorem countText_nil (text : Text) : countText text [] = 0 := rfl

theorem countText_cons (text : Text) (t : Token) (ts : List Token) :
    countText text (t :: ts) = countText text ts + if t.text = text then 1 else 0 := by
  simp [countText, countP_cons]

/-- No beginning of the tokens closes one parenthesis more than `depth` and those it opens. -/
def StaysOpen (depth : Nat) (ts : List Token) : Prop :=
  ∀ p, p <+: ts → countText [')'] p ≤ depth + countText ['('] p

theorem staysOpen_nil (depth : Nat) : StaysOpen depth [] := fun p hp => by
  rw [prefix_nil.mp hp]
  exact Nat.zero_le _

theorem staysOpen_cons : StaysOpen depth (t :: ts) ↔
      if t.text = ['('] then StaysOpen (depth + 1) ts
      else if t.text = [')'] then 0 < depth ∧ StaysOpen (depth - 1) ts
      else StaysOpen depth ts := by
  have hco : StaysOpen depth (t :: ts) ↔
      ∀ p, p <+: ts → countText [')'] (t :: p) ≤ depth + countText ['('] (t :: p) := by
    refine ⟨fun h p hp => h (t :: p) (prefix_cons_inj t |>.mpr hp), fun h p hp => ?_⟩
    rcases prefix_cons_iff.mp hp with rfl | ⟨q, rfl, hq⟩
    · exact Nat.zero_le _
    · exact h q hq
  rw [hco]
  by_cases hop : t.text = ['(']
  · have hne : ¬ t.text = [')'] := by rw [hop]; decide
    rw [if_pos hop]
    refine forall_congr' fun p => imp_congr_right fun _ => ?_
    rw [countText_cons, countText_cons, if_pos hop, if_neg hne]
    omega
  · rw [if_neg hop]
    by_cases hcl : t.text = [')']
    · rw [if_pos hcl]
      constructor
      · intro h
        have hz := h [] nil_prefix
        rw [countText_cons, countText_cons, if_neg hop, if_pos hcl] at hz
        refine ⟨Nat.lt_of_lt_of_le Nat.zero_lt_one hz, fun p hp => ?_⟩
        have hp := h p hp
        rw [countText_cons, countText_cons, if_neg hop, if_pos hcl] at hp
        rw [countText_nil] at hz
        omega
      · rintro ⟨hpos, h⟩ p hp
        have hp := h p hp
        rw [countText_cons, countText_cons, if_neg hop, if_pos hcl]
        omega
    · rw [if_neg hcl]
      refine forall_congr' fun p => imp_congr_right fun _ => ?_
      rw [countText_cons, countText_cons, if_neg hop, if_neg hcl]
      rfl

instance decidableStaysOpen : ∀ depth ts, Decidable (StaysOpen depth ts)
  | depth, [] => isTrue (staysOpen_nil depth)
  | depth, _ :: ts =>
    have := decidableStaysOpen (depth + 1) ts
    have := decidableStaysOpen (depth - 1) ts
    have := decidableStaysOpen depth ts
    decidable_of_iff' _ staysOpen_cons

theorem balanced_iff : Balanced ts ↔ StaysOpen 0 ts ∧ countText ['('] ts = countText [')'] ts :=
  ⟨fun h => ⟨fun p hp => (Nat.zero_add _).symm ▸ h.closed_le p hp, h.settled⟩,
    fun h => ⟨fun p hp => Nat.zero_add (countText ['('] p) ▸ h.1 p hp, h.2⟩⟩

instance (ts : List Token) : Decidable (Balanced ts) := decidable_of_iff' _ balanced_iff

theorem staysOpen_or_closes (ts : List Token) : ∀ depth, StaysOpen depth ts ∨
    ∃ inner c back, ts = inner ++ c :: back ∧ c.text = [')'] ∧ StaysOpen depth inner ∧
      countText [')'] inner = depth + countText ['('] inner := by
  induction ts with
  | nil => exact fun depth => .inl (staysOpen_nil depth)
  | cons t ts ih =>
    intro depth
    -- a token that leaves the depth at `depth'`
    have hst (depth' : Nat) (hop : ∀ us, StaysOpen depth' us → StaysOpen depth (t :: us))
        (hco : ∀ us, countText [')'] us = depth' + countText ['('] us →
          countText [')'] (t :: us) = depth + countText ['('] (t :: us)) :
        StaysOpen depth (t :: ts) ∨ ∃ inner c back, t :: ts = inner ++ c :: back ∧ c.text = [')'] ∧
          StaysOpen depth inner ∧ countText [')'] inner = depth + countText ['('] inner := by
      rcases ih depth' with h | ⟨inner, c, back, rfl, hc, hinner, hs⟩
      · exact .inl (hop ts h)
      · exact .inr ⟨t :: inner, c, back, rfl, hc, hop inner hinner, hco inner hs⟩
    by_cases hop : t.text = ['(']
    · have hne : ¬ t.text = [')'] := by rw [hop]; decide
      refine hst (depth + 1) (fun us h => staysOpen_cons.mpr (by rwa [if_pos hop])) fun us h => ?_
      rw [countText_cons, countText_cons, if_pos hop, if_neg hne]
      omega
    by_cases hcl : t.text = [')']
    · cases depth with
      | zero => exact .inr ⟨[], t, ts, rfl, hcl, staysOpen_nil 0, rfl⟩
      | succ depth =>
        refine hst depth (fun us h => staysOpen_cons.mpr ?_) fun us h => ?_
        · rw [if_neg hop, if_pos hcl]
          exact ⟨Nat.succ_pos depth, h⟩
        · rw [countText_cons, countText_cons, if_neg hop, if_pos hcl]
          omega
    · refine hst depth (fun us h => staysOpen_cons.mpr (by rwa [if_neg hop, if_neg hcl])) fun us h => ?_
      rw [countText_cons, countText_cons, if_neg hop, if_neg hcl]
      exact h

/-! ## The walk -/

namespace Text

/-- The line breaks among the tokens are no words and no parentheses. -/
def BreaksApart (ts : List Token) : Prop := ∀ t ∈ ts, t.kind = .lineBreak → ∀ c ∈ t.text.head?, c = '\r' ∨ c = '\n'

theorem BreaksApart.kind_ne (h : BreaksApart ts) (ht : t ∈ ts) {c : Char}
    (hc : t.text.head? = some c) (hne : c ≠ '\r' ∧ c ≠ '\n') : t.kind ≠ .lineBreak := fun hk =>
  (h t ht hk c hc).elim hne.1 hne.2

variable {word : Text} {opening passed : Nat}

theorem closingParenGo_before {front : List Token} (hfront : ∀ t ∈ front, t.text ≠ word) (rest : List Token) :
    closingParenGo word ⟨false, 0, opening, passed⟩ (front ++ rest) =
      closingParenGo word ⟨false, 0, opening + brokenLength front, passed + brokenLength front⟩ rest := by
  induction front generalizing opening passed with
  | nil => rfl
  | cons t front ih =>
    obtain ⟨ht, hfront⟩ := forall_mem_cons.mp hfront
    rw [cons_append, closingParenGo, brokenLength]
    by_cases hk : t.kind = .lineBreak
    · simp [hk, ih hfront, Nat.add_assoc]
    · simp [hk, ht, ih hfront]

theorem closingParenGo_between (hword : word ≠ ['(']) {mid : List Token} (hmid : ∀ t ∈ mid, t.text ≠ ['('])
    (rest : List Token) :
    closingParenGo word ⟨true, 0, opening, passed⟩ (mid ++ rest) =
      closingParenGo word ⟨true, 0, opening, passed + brokenLength mid⟩ rest := by
  induction mid generalizing passed with
  | nil => rfl
  | cons t mid ih =>
    obtain ⟨ht, hmid⟩ := forall_mem_cons.mp hmid
    rw [cons_append, closingParenGo, brokenLength]
    by_cases hk : t.kind = .lineBreak
    · simp [hk, ih hmid, Nat.add_assoc]
    · simp [hk, ht, hword, ih hmid]

theorem closingParenGo_inside (hword : word ≠ ['('] ∧ word ≠ [')']) {inner : List Token}
    (hbreaks : BreaksApart inner) (hop : StaysOpen depth inner) (rest : List Token) :
    closingParenGo word ⟨true, depth + 1, opening, passed⟩ (inner ++ rest) = closingParenGo word
      ⟨true, depth + 1 + countText ['('] inner - countText [')'] inner, opening, passed + brokenLength inner⟩
      rest := by
  induction inner generalizing passed depth with
  | nil => rfl
  | cons t inner ih =>
    obtain ⟨ht, hbreaks⟩ := forall_mem_cons.mp hbreaks
    rw [staysOpen_cons] at hop
    rw [cons_append, closingParenGo, brokenLength, countText_cons, countText_cons]
    by_cases hk : t.kind = .lineBreak
    · have hne : t.text ≠ ['('] ∧ t.text ≠ [')'] := by
        refine ⟨fun h => ?_, fun h => ?_⟩ <;> simpa [h] using ht hk
      rw [if_neg hne.1, if_neg hne.2] at hop
      simp [hk, hne, ih hbreaks hop, Nat.add_assoc]
    by_cases hone : t.text = ['(']
    · rw [if_pos hone] at hop
      have hd : depth + 1 + (countText ['('] inner + 1) - countText [')'] inner =
        depth + 1 + 1 + countText ['('] inner - countText [')'] inner := by omega
      simp [hk, hone, hword.1.symm, ih hbreaks hop, hd]
    rw [if_neg hone] at hop
    by_cases hcl : t.text = [')']
    · rw [if_pos hcl] at hop
      obtain ⟨hp, hop⟩ := hop
      obtain ⟨depth, rfl⟩ := Nat.exists_eq_succ_of_ne_zero (Nat.pos_iff_ne_zero.mp hp)
      rw [Nat.succ_sub_one] at hop
      have hd : depth + 1 + 1 + countText ['('] inner - (countText [')'] inner + 1) =
        depth + 1 + countText ['('] inner - countText [')'] inner := by omega
      simp [hk, hcl, hword.2.symm, ih hbreaks hop, hd]
    · rw [if_neg hcl] at hop
      simp [hk, hone, hcl, hword.1, ih hbreaks hop]

theorem word_head {word : Text} (hne : word ≠ []) (hword : word.all isWord) :
    word ≠ ['('] ∧ word ≠ [')'] ∧ ∃ c, word.head? = some c ∧ c ≠ '\r' ∧ c ≠ '\n' := by
  obtain ⟨c, rest, rfl⟩ := exists_cons_of_ne_nil hne
  have hc : isWord c := all_eq_true.mp hword c mem_cons_self
  have hn (d : Char) (hd : isWord d = false) : c ≠ d := by
    rintro rfl
    rw [hc] at hd
    cases hd
  exact ⟨fun h => hn '(' (by decide) (cons.inj h).1, fun h => hn ')' (by decide) (cons.inj h).1, c, rfl,
    hn '\r' (by decide), hn '\n' (by decide)⟩

section Found

variable {front rest : List Token} {w : Token} (hne : word ≠ []) (hword : word.all isWord = true)
  (hbreaks : BreaksApart (front ++ w :: rest)) (hw : w.text = word) (hfront : ∀ t ∈ front, t.text ≠ word)

include hne hword hbreaks hw hfront

theorem closingParenGo_begin : closingParenGo word ⟨word.isEmpty, 0, 0, 0⟩ (front ++ w :: rest) =
    closingParenGo word ⟨true, 0, brokenLength front, brokenLength front⟩ rest := by
  obtain ⟨hop, -, c, hc, he⟩ := word_head hne hword
  have hk : w.kind ≠ .lineBreak := hbreaks.kind_ne (by simp) (hw ▸ hc) he
  rw [isEmpty_eq_false_iff.mpr hne, closingParenGo_before hfront, closingParenGo]
  simp [hk, hw, hne, hop]

theorem closingParenGo_none (hrest : ∀ t ∈ rest, t.text ≠ ['(']) :
    closingParenGo word ⟨word.isEmpty, 0, 0, 0⟩ (front ++ w :: rest) = none := by
  rw [closingParenGo_begin hne hword hbreaks hw hfront, ← append_nil rest,
    closingParenGo_between (word_head hne hword).1 hrest]
  rfl

variable {mid after : List Token} {o : Token} (hrest : rest = mid ++ o :: after)
  (hmid : ∀ t ∈ mid, t.text ≠ ['(']) (ho : o.text = ['('])

include hrest hmid ho

theorem closingParenGo_open : closingParenGo word ⟨word.isEmpty, 0, 0, 0⟩ (front ++ w :: rest) =
    closingParenGo word ⟨true, 0 + 1, brokenLength front + o.start.col,
      brokenLength (front ++ w :: (mid ++ [o]))⟩ after := by
  obtain ⟨hop, -, c, hc, he⟩ := word_head hne hword
  have hkw : w.kind ≠ .lineBreak := hbreaks.kind_ne (by simp) (hw ▸ hc) he
  have hko : o.kind ≠ .lineBreak := hbreaks.kind_ne (by simp [hrest]) (c := '(') (by simp [ho]) (by decide)
  rw [closingParenGo_begin hne hword hbreaks hw hfront, hrest, closingParenGo_between hop hmid, closingParenGo]
  simp [hko, ho, Ne.symm hop, brokenLength, hkw]

theorem closingParenGo_unclosed (hafter : StaysOpen 0 after) :
    closingParenGo word ⟨word.isEmpty, 0, 0, 0⟩ (front ++ w :: rest) = none := by
  obtain ⟨hop, hcl, -⟩ := word_head hne hword
  have hi : BreaksApart after := fun t ht => hbreaks t (by simp [hrest, ht])
  rw [closingParenGo_open hne hword hbreaks hw hfront hrest hmid ho, ← append_nil after,
    closingParenGo_inside ⟨hop, hcl⟩ hi hafter]
  rfl

variable {inner back : List Token} {c : Token} (hafter : after = inner ++ c :: back)
  (hinner : Balanced inner) (hc : c.text = [')'])

include hafter hinner hc

theorem closingParenGo_pair : closingParenGo word ⟨word.isEmpty, 0, 0, 0⟩ (front ++ w :: rest) =
    some (brokenLength front + o.start.col,
      brokenLength (front ++ w :: (mid ++ o :: inner)) + c.start.col) := by
  obtain ⟨hop, hcl, -⟩ := word_head hne hword
  have hi : BreaksApart inner := fun t ht => hbreaks t (by simp [hrest, hafter, ht])
  have hkc : c.kind ≠ .lineBreak := hbreaks.kind_ne (by simp [hrest, hafter]) (c := ')') (by simp [hc]) (by decide)
  have hs : StaysOpen 0 inner := (balanced_iff.mp hinner).1
  rw [closingParenGo_open hne hword hbreaks hw hfront hrest hmid ho, hafter,
    closingParenGo_inside ⟨hop, hcl⟩ hi hs, closingParenGo, hinner.settled]
  simp [hkc, hc, Ne.symm hcl, brokenLength, Nat.add_assoc]

end Found

theorem getElem?_offset {s : Text} {c : Char} (ht : t ∈ (scan s).tokens) (hte : t.text = [c])
    (hc : c ≠ '\n') : s[s.offset t.start]? = some c := by
  have hat := text_at_offset ht (hte ▸ cons_ne_nil c []) (by simp [hte, hc.symm])
  rw [hte] at hat
  obtain ⟨rest, hrest⟩ := hat
  rw [← head?_drop, ← hrest]
  rfl

/-- **The parentheses that a search finds, and the positions that it answers**: those of the first parenthesis
behind the word and of the one that closes it, exactly if each row before ends in a line break that the search
has counted; the length of the line if there is no such pair. -/
theorem closingParen_eq_offset_iff {s word : Text} (hne : word ≠ []) (hword : word.all isWord = true)
    (hfault : (scan s).fault = none) {front rest : List Token} {w : Token}
    (htokens : (scan s).tokens = front ++ w :: rest) (hw : w.text = word) (hfront : ∀ t ∈ front, t.text ≠ word) :
    ((∀ t ∈ rest, t.text ≠ ['(']) → s.closingParen word = .ok (s.length, s.length)) ∧
    ∀ mid o after, rest = mid ++ o :: after → (∀ t ∈ mid, t.text ≠ ['(']) → o.text = ['('] →
      s[s.offset o.start]? = some '(' ∧
      ((∀ inner c back, after = inner ++ c :: back → c.text = [')'] → ¬ Balanced inner) →
        s.closingParen word = .ok (s.length, s.length)) ∧
      ∀ inner c back, after = inner ++ c :: back → c.text = [')'] → Balanced inner → s[s.offset c.start]? = some ')' ∧
        ∃ opening closing, s.closingParen word = .ok (opening, closing) ∧
          (opening = s.offset o.start ↔ RowsBroken front 1 o.start.row) ∧
          (closing = s.offset c.start ↔ RowsBroken (front ++ w :: (mid ++ o :: inner)) 1 c.start.row) := by
  have hbreaks : BreaksApart (front ++ w :: rest) := fun t ht hk =>
    ((scan_placed s).breaks t (htokens ▸ ht) hk).2
  have hlength (hnone : closingParenGo word ⟨word.isEmpty, 0, 0, 0⟩ (front ++ w :: rest) = none) :
      s.closingParen word = .ok (s.length, s.length) := by
    rw [closingParen, htokens, hnone, hfault]
  refine ⟨fun hrest => hlength (closingParenGo_none hne hword hbreaks hw hfront hrest), ?_⟩
  rintro mid o after rfl hmid ho
  refine ⟨getElem?_offset (by simp [htokens]) ho (by decide), fun hnever => hlength ?_, ?_⟩
  · refine closingParenGo_unclosed hne hword hbreaks hw hfront rfl hmid ho ?_
    refine (staysOpen_or_closes after 0).resolve_right ?_
    rintro ⟨inner, c, back, hafter, hc, hstays, hsettled⟩
    rw [Nat.zero_add] at hsettled
    exact hnever inner c back hafter hc (balanced_iff.mpr ⟨hstays, hsettled.symm⟩)
  · rintro inner c back rfl hc hinner
    refine ⟨getElem?_offset (by simp [htokens]) hc (by decide), brokenLength front + o.start.col,
      brokenLength (front ++ w :: (mid ++ o :: inner)) + c.start.col, ?_, ?_, ?_⟩
    · rw [closingParen, htokens, closingParenGo_pair hne hword hbreaks hw hfront rfl hmid ho rfl hinner hc]
    · exact brokenLength_eq_iff (w :: mid) (inner ++ c :: back) (by simp [htokens]) (by simp [ho]) (by simp [ho])
    · exact brokenLength_eq_iff [] back (by simp [htokens]) (by simp [hc]) (by simp [hc])

/-- A call on the second row of a list: the search finds both of its parentheses. -/
theorem closingParen_in_brackets : ∃ opening closing, closingParen "[\nf(g(x))]\n" "f" = .ok (opening, closing) ∧
    opening = offset "[\nf(g(x))]\n" ⟨2, 1⟩ ∧ closing = offset "[\nf(g(x))]\n" ⟨2, 6⟩ := by
  let front : List Token := [⟨.operator, ['['], ⟨1, 0⟩, ⟨1, 1⟩, "[\n"⟩, ⟨.lineBreak, ['\n'], ⟨1, 1⟩, ⟨1, 2⟩, "[\n"⟩]
  let token (kind : TokenKind) (c : Char) (col : Nat) : Token := ⟨kind, [c], ⟨2, col⟩, ⟨2, col + 1⟩, "f(g(x))]\n"⟩
  let inner := [token .word 'g' 2, token .operator '(' 3, token .word 'x' 4, token .operator ')' 5]
  have hscan : (scan "[\nf(g(x))]\n").fault = none ∧ (scan "[\nf(g(x))]\n").tokens =
      front ++ token .word 'f' 0 :: (token .operator '(' 1 :: (inner ++ token .operator ')' 6 ::
        [token .operator ']' 7, token .newline '\n' 8, ⟨.finish, [], ⟨3, 0⟩, ⟨3, 0⟩, []⟩])) := by decide +kernel
  have hbroken {ts : List Token} (hts : front ⊆ ts) : RowsBroken ts 1 2 := fun r hr hlast =>
    ⟨_, hts (.tail _ (.head _)), rfl, by dsimp only; omega, rfl⟩
  obtain ⟨-, h⟩ := closingParen_eq_offset_iff (by decide) (by decide) hscan.1 hscan.2 rfl (by decide)
  obtain ⟨-, -, h⟩ := h [] (token .operator '(' 1) _ rfl (by simp) rfl
  obtain ⟨-, opening, closing, hpair, hopening, hclosing⟩ := h inner (token .operator ')' 6) _ rfl rfl (by decide)
  exact ⟨opening, closing, hpair, hopening.mpr (hbroken (List.Subset.refl _)),
    hclosing.mpr (hbroken (List.subset_append_left _ _))⟩

/-- Behind a row that is continued the positions are too small: they count from the second row on. -/
theorem closingParen_behind_continuation :
    let s : Text := "a = \\\n f(x)\n"
    s.closingParen "f" = .ok (2, 4) ∧ s[2]? = some '=' ∧ s[8]? = some '(' ∧ s[10]? = some ')' := by
  decide +kernel

end Text

end QtMigration
