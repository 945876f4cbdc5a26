import Mathlib.Data.List.Infix
import QtMigration.Proofs.Retarget.Agreement

/-!
# Proofs/Retarget/Occurrences — retargeting a line occurrence by occurrence

**Retargeting is then one walk through the line** that writes, for each occurrence of the module, the
module of the name behind it (`retarget_each_occurrence`).
-/

namespace QtMigration

open List

/-! ## Putting a word in the place of each occurrence of another -/

/-- Walk of `rename`: `skip` is what is left of the occurrence that was met last. -/
def renameGo (old : Text) (choose : Text → Text) : Nat → Text → Text
  | _, [] => []
  | skip + 1, _ :: cs => renameGo old choose skip cs
  | 0, c :: cs =>
    if old.isPrefixOf (c :: cs) then
      choose ((c :: cs).drop old.length) ++ renameGo old choose (old.length - 1) cs
    else c :: renameGo old choose 0 cs

/-- **The text with another word for each occurrence of `old`**: what `choose` makes of the text behind it. -/
def rename (old : Text) (choose : Text → Text) (s : Text) : Text := renameGo old choose 0 s

section Rename

variable {old : Text} {choose : Text → Text}

theorem renameGo_skip (rest : Text) : ∀ passed : Text,
    renameGo old choose passed.length (passed ++ rest) = rename old choose rest
  | [] => rfl
  | c :: passed => by
    rw [length_cons, cons_append, renameGo]
    exact renameGo_skip rest passed

theorem rename_self (ho : old ≠ []) (rest : Text) :
    rename old choose (old ++ rest) = choose rest ++ rename old choose rest := by
  cases old with
  | nil => exact absurd rfl ho
  | cons c cs =>
    have hh : (c :: cs).isPrefixOf (c :: (cs ++ rest)) :=
      isPrefixOf_iff_prefix.mpr (prefix_append (c :: cs) rest)
    rw [rename, cons_append, renameGo, if_pos hh, ← cons_append, drop_left, length_cons,
      Nat.add_sub_cancel, renameGo_skip]

theorem rename_pass {rest : Text} : ∀ passed : Text, (∀ k < passed.length, ¬ old <+: (passed ++ rest).drop k) →
      rename old choose (passed ++ rest) = passed ++ rename old choose rest
  | [], _ => rfl
  | c :: passed, h => by
    have hh : ¬ old.isPrefixOf (c :: (passed ++ rest)) := by
      rw [ isPrefixOf_iff_prefix]
      exact h 0 (by simp)
    rw [rename, cons_append, renameGo, if_neg hh]
    exact congrArg (c :: ·) (rename_pass passed fun k hk => h (k + 1) (by simpa using hk))

theorem rename_references (ho : isModuleName old) : ∀ {refs : List Reference} {front : Text},
    ¬ old <:+: front → (∀ r ∈ refs, r.module = old ∧ r.Dotted old) →
      rename old (fun behind => choose (nameIn (behind.drop 1)).trim) (front ++ referencesText refs) =
        front ++ referencesText (retargeted old choose refs)
  | [], front, hf, _ => by
    rw [referencesText, rename_pass front fun k _ hin => hf ?_]
    · rfl
    · rw [append_nil] at hin
      exact hin.isInfix.trans (drop_suffix k front).isInfix
  | r :: rs, front, hf, hre => by
    obtain ⟨⟨hm, hr⟩, hrs⟩ := forall_mem_cons.mp hre
    obtain ⟨rest, ht, -⟩ := hr.dot
    have hb : (r.tail ++ referencesText rs).drop 1 = r.behind rs := by
      rw [Reference.behind, ht]
      rfl
    rw [referencesText, append_assoc, hm,
      rename_pass front fun k hk => not_prefix_before ho hf ho hk, rename_self (module_ne_nil ho), hb,
      rename_references ho hr.lacks hrs, retargeted, if_pos hm, referencesText, append_assoc]

end Rename

/-! ## Lines in which the module is called throughout -/

def startsCall : Text → Bool
  | d :: c :: _ => d == '.' && isNamePart c
  | _ => false

/-- **Wherever the module stands in the line, a dot and a name follow.** -/
def calls (old line : Text) : Bool :=
  line.tails.all fun rest => !old.isPrefixOf rest || startsCall (rest.drop old.length)

section Calls

variable {old line : Text}

theorem exists_of_startsCall : ∀ {s : Text}, startsCall s → ∃ c rest, s = '.' :: c :: rest ∧ endsName c = false
  | d :: c :: rest, h => by
    obtain ⟨hd, hc⟩ := Bool.and_eq_true_iff.mp h
    have hn : isIdentifier [c] := by simp [isIdentifier, hc]
    have he : endsName c = false := endsName_of_isIdentifier hn mem_cons_self
    exact ⟨c, rest, by rw [eq_of_beq hd], he⟩

theorem startsCall_behind (h : calls old line) {before behind : Text}
    (hl : before ++ (old ++ behind) = line) : startsCall behind := by
  have hr : old ++ behind ∈ line.tails := (mem_tails _ _).mpr ⟨before, hl⟩
  have hc := all_eq_true.mp h _ hr
  rwa [ isPrefixOf_iff_prefix.mpr (prefix_append old behind), Bool.not_true, Bool.false_or, drop_left] at hc

theorem head_references (ho : isModuleName old) (tails : List Text) :
    ∀ c ∈ (tails.map (old ++ ·)).flatten.head?, c = 'Q' := by
  obtain ⟨rest, rfl, -⟩ := exists_of_isModuleName ho
  cases tails with
  | nil => simp
  | cons tail tails => simp

theorem dotted_references (ho : isModuleName old) (h : calls old line) :
    ∀ r ∈ references old line, r.module = old ∧ r.Dotted old := by
  intro r hr
  obtain ⟨tail, ht, rfl⟩ := mem_map.mp hr
  refine ⟨rfl, ho, fun _ => rfl, ?_, Text.splitOn_lacks (module_ne_nil ho) (mem_of_mem_drop ht)⟩
  obtain ⟨earlier, later, hs⟩ := append_of_mem ht
  have hl := firstPiece_append_references (module_ne_nil ho) line
  rw [references, referencesText_map, hs, map_append, map_cons, flatten_append, flatten_cons,
    ← append_assoc, append_assoc old] at hl
  obtain ⟨c, rest, hb, hc⟩ := exists_of_startsCall (startsCall_behind h hl)
  cases tail with
  | nil =>
    -- the next module would stand where the dot has to be
    have hd := head_references ho later '.' (by rw [← nil_append (List.flatten _), hb]; rfl)
    exact absurd hd (by decide)
  | cons d tail =>
    obtain ⟨rfl, hre⟩ := cons.inj hb
    refine ⟨tail, rfl, fun e he => ?_⟩
    obtain ⟨tail, rfl⟩ := head?_eq_some_iff.mp he
    obtain ⟨rfl, -⟩ := cons.inj hre
    exact hc

end Calls

/-! ## Retargeting -/

theorem namesBehind_of_not_has {old line : Text} (h : line.has (old ++ ".") = false) : namesBehind old line = [] := by
  have hm : ∀ k, ¬ (old ++ "." : Text) <:+ [] ++ line.take k := fun k hin =>
    Text.has_eq_false_iff.mp h (hin.isInfix.trans ( take_prefix k line).isInfix)
  have he : ¬ (old ++ "." : Text).reverse.isPrefixOf line.reverse := by
    rw [ isPrefixOf_iff_prefix, reverse_prefix]
    simpa using hm line.length
  have hp := @namesGo_pass (old ++ ".") [] line 0 [] fun k _ _ => hm k
  rw [append_nil, nil_append, Nat.zero_sub, namesGo, if_neg he] at hp
  exact hp

/-- **What a line becomes when the classes of `new` have left `old`.** -/
def retargetedLine (old new : Text) (classes : List Text) (line : Text) : Text :=
  if line.isCode && !line.has " import " && line.has (old ++ ".") then
    rename old (fun behind => moduleFor old new classes (nameIn (behind.drop 1)).trim) line
  else line

section Retarget

variable {old new : Text} {classes : List Text}

theorem isModuleName_of_mem_splitModules (ho : old ∈ splitModules) : isModuleName old :=
  all_eq_true.mp (show splitModules.all isModuleName by decide) old ho

theorem retargetLine_of_calls (ho : old ∈ splitModules) {line : Text} (hco : line.isCode)
    (hi : line.has " import " = false) (hc : calls old line) (p : Progress) :
    retargetLine old new classes p line =
      .ok ⟨[rename old (fun behind => moduleFor old new classes (nameIn (behind.drop 1)).trim) line], 0,
        notedBy (moduleOf old new classes) p (calledNames old (references old line))⟩ := by
  have hn := isModuleName_of_mem_splitModules ho
  have hl := firstPiece_lacks (module_ne_nil hn) line
  have hrefs := dotted_references hn hc
  have hli := firstPiece_append_references (module_ne_nil hn) line
  have hre := retargetLine_references hn new classes p ho hl (fun r hr => (hrefs r hr).2)
    (by rwa [hli]) (by rwa [hli])
  rwa [← rename_references hn hl hrefs, hli] at hre

theorem exists_retargetLine_eq (ho : old ∈ splitModules) {line : Text}
    (h : line.isCode → line.has " import " = false → line.has (old ++ ".") = false ∨ calls old line)
    (p : Progress) : ∃ q, retargetLine old new classes p line = .ok ⟨[retargetedLine old new classes line], 0, q⟩ := by
  rw [retargetedLine]
  cases hc : line.isCode with
  | false => exact ⟨p, by rw [retargetLine, hc]; rfl⟩
  | true =>
    cases hi : line.has " import " with
    | true => exact ⟨p, by rw [retargetLine, hc, hi]; rfl⟩
    | false =>
      cases hd : line.has (old ++ ".") with
      | true =>
        have hca := (h hc hi).resolve_left (by rw [hd]; decide)
        exact ⟨_, retargetLine_of_calls ho hc hi hca p⟩
      | false =>
        refine ⟨p, ?_⟩
        rw [retargetLine]
        split
        · rfl
        · rw [if_neg (by simpa using ho), namesBehind_of_not_has hd]
          rfl

theorem exists_retargetGo_eq_map (ho : old ∈ splitModules) : ∀ {lines : List Text},
    (∀ line ∈ lines, line.isCode → line.has " import " = false →
      line.has (old ++ ".") = false ∨ calls old line) →
    ∀ p, ∃ q, retargetGo old new classes 0 p lines = .ok (lines.map (retargetedLine old new classes), q)
  | [], _, p => ⟨p, rfl⟩
  | line :: lines, h, p => by
    obtain ⟨hli, hl⟩ := forall_mem_cons.mp h
    obtain ⟨q, hq⟩ := exists_retargetLine_eq ho hli p
    obtain ⟨q', hq'⟩ := exists_retargetGo_eq_map ho hl q
    refine ⟨q', ?_⟩
    rw [retargetGo]
    exact bind_eq_ok.mpr ⟨_, hq, bind_eq_ok.mpr ⟨_, hq', rfl⟩⟩

end Retarget

/-- **Retargeting goes occurrence by occurrence.** -/
theorem retarget_each_occurrence {old new : Text} {classes lines : List Text} (hold : old ∈ splitModules)
    (hclasses : Catalogue.classesOf? new = some classes)
    (hlines : ∀ line ∈ lines, line.isCode = true → line.has " import " = false →
      line.has (old ++ ".") = false ∨ calls old line = true) (p : Progress) :
    ∃ q, retarget old new p lines = .ok (lines.map (retargetedLine old new classes), q) := by
  rw [retarget, hclasses]
  exact exists_retargetGo_eq_map hold hlines p

/-- Names that are the next occurrence, that run into it, and that are followed by blanks; and the module without a
dot, in a comment and in an import. -/
def printerLines : List Text :=
  ["QtGui.QtGui.QPrinter (QtGui.QColor[QtGui.QSound])\n", "x = QtGui\n", "# QtGui.QPrinter\n",
    "from PyQt4 import QtGui\n"]

theorem retarget_each_occurrence_printerLines :
    (∀ line ∈ printerLines, line.isCode = true → line.has " import " = false →
      line.has ("QtGui" ++ ("." : Text)) = false ∨ calls "QtGui" line = true) ∧
    printerLines.map (retargetedLine "QtGui" "QtPrintSupport" Catalogue.printSupport) =
      (["QtGui.QtPrintSupport.QPrinter (QtGui.QColor[QtMultimedia.QSound])\n", "x = QtGui\n", "# QtGui.QPrinter\n",
        "from PyQt4 import QtGui\n"] : List Text) ∧
    ∃ q, retarget "QtGui" "QtPrintSupport" .initial printerLines =
      .ok (printerLines.map (retargetedLine "QtGui" "QtPrintSupport" Catalogue.printSupport), q) := by
  have hlines : ∀ line ∈ printerLines, line.isCode = true → line.has " import " = false →
      line.has ("QtGui" ++ ("." : Text)) = false ∨ calls "QtGui" line = true := by decide
  have hclasses : Catalogue.classesOf? "QtPrintSupport" = some Catalogue.printSupport := by decide
  exact ⟨hlines, by decide, retarget_each_occurrence gui_mem_splitModules hclasses hlines .initial⟩

end QtMigration
