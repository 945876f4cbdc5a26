import QtMigration.Proofs.Import.Sorted
import QtMigration.Proofs.Retarget.Moved

/-!
# Proofs/Retarget/Agreement — imported classes and qualified ones

Where a class is now is decided twice: for a name in an import statement by sorting it to a module
(`FiledIn`), and for a name behind the graphics module by the passes that put another module there
(`CalledIn`).
-/

namespace QtMigration

open List

variable {c : Char} {p : Progress} {m module : Text}

/-! ## Identifiers -/

/-- What an identifier may be made of: the word characters of ASCII, and beyond ASCII anything but white
space. -/
def isNamePart (c : Char) : Bool := if c.toNat < 0x80 then Text.isAsciiWord c else !Text.isBlank c

def isIdentifier (name : Text) : Bool := !name.isEmpty && name.all isNamePart

section Identifier

variable {name : Text} (h : isIdentifier name = true)

theorem isBlank_of_isNamePart (hc : isNamePart c) : Text.isBlank c = false := by
  rw [isNamePart] at hc
  split at hc
  next ha =>
    refine Text.isBlank_of_isWord ?_
    rw [Text.isWord, if_pos ha, hc]
  · simpa using hc

include h

theorem ne_nil_of_isIdentifier : name ≠ [] := by
  rw [isIdentifier, Bool.and_eq_true] at h
  simpa using h.1

theorem isNamePart_of_mem (hc : c ∈ name) : isNamePart c := by
  rw [isIdentifier, Bool.and_eq_true, all_eq_true] at h
  exact h.2 c hc

theorem notMem_of_isIdentifier (hc : isNamePart c = false) : c ∉ name := fun hm => by
  rw [isNamePart_of_mem h hm] at hc
  cases hc

theorem endsName_of_isIdentifier (hc : c ∈ name) : endsName c = false := by
  by_contra he
  simp only [Bool.not_eq_false, endsName, Bool.or_eq_true, beq_iff_eq] at he
  obtain ((((rfl | rfl) | rfl) | rfl) | rfl) | rfl := he <;>
    exact notMem_of_isIdentifier h (by decide) hc

end Identifier

/-! ## The module of an imported name -/

/-- **Where an imported name goes**: the name alone is sorted to the module. -/
def FiledIn (module name : Text) : Prop :=
  ∃ home ∈ Home.all, home.module = module ∧ (sortNames name).at home ≠ []

theorem listedNames_of_isIdentifier {name : Text} (h : isIdentifier name) : listedNames name = [name] := by
  have hne := ne_nil_of_isIdentifier h
  have hs : ∀ c ∈ name, isSpacing c = false := fun c hc => by
    have hp : ∀ d, isNamePart d = false → (c == d) = false := fun d hd => by
      simpa using fun heq : c = d => notMem_of_isIdentifier h hd (heq ▸ hc)
    rw [isSpacing, isBlank_of_isNamePart (isNamePart_of_mem h hc), isFrame, hp '\\' (by decide),
      hp '(' (by decide), hp ')' (by decide)]
    rfl
  rw [listedNames_row (notMem_of_isIdentifier h (by decide)),
    rowName_eq_self hne (notMem_of_isIdentifier h (by decide)) hs,
    filter_cons_of_pos (by simpa using hne), filter_nil]

theorem filedIn_iff {name : Text} (h : isIdentifier name) :
    FiledIn module name ↔ module = newModule name := by
  have hc : name.isComment = false := isComment_eq_false (notMem_of_isIdentifier h (by decide))
  have hs : ∀ home, (sortNames name).at home ≠ [] ↔ homeOf name = home := fun home => by
    rw [at_sortNames, listedNames_of_isIdentifier h, Ne, map_eq_nil_iff, filter_singleton]
    by_cases hh : homeOf name = home <;> simp [hh]
  rw [← module_homeOf hc]
  constructor
  · rintro ⟨home, -, rfl, hh⟩
    rw [(hs home).mp hh]
  · rintro rfl
    refine ⟨homeOf name, ?_, rfl, (hs _).mpr rfl⟩
    have hne := homeOf_ne_comment hc
    generalize homeOf name = home at hne
    cases home <;> simp_all [Home.all]

/-! ## The module of a qualified name -/

def callTail (name : Text) : Text := '.' :: (name ++ ['(', ')', '\n'])

def callLine (module name : Text) : Text := "x = " ++ (module ++ callTail name)

/-- **Where a qualified name goes**: the passes for the graphics module put the module before the name,
and change nothing else. -/
def CalledIn (module name : Text) : Prop :=
  ∀ p, ∃ q, retargetAll guiPasses p [callLine "QtGui" name] = .ok ([callLine module name], q)

theorem callLine_inj {m' name : Text} : callLine m name = callLine m' name ↔ m = m' := by
  rw [callLine, callLine, append_cancel_left_eq, append_cancel_right_eq]

theorem isCode_callLine (m name : Text) : (callLine m name).isCode := by
  have hx : (("x = " : String).toList : Text) = 'x' :: [' ', '=', ' '] := String.toList_ofList
  rw [callLine, hx, cons_append, ← nil_append ('x' :: _), Text.isCode_append_cons (by decide)]
  decide

theorem not_infix_front : ¬ ("QtGui" : Text) <:+: "x = " := fun hin =>
  absurd (hin.subset (show 'Q' ∈ ("QtGui" : Text) by decide)) (by decide)

section Call

variable {name : Text} (h : isIdentifier name = true)

include h

theorem has_import_callLine (hm : ' ' ∉ m) : (callLine m name).has " import " = false := by
  have hb : ' ' ∉ m ++ callTail name := by
    simp [callTail, hm, notMem_of_isIdentifier h (c := ' ') (by decide)]
  have hx : (("x = " : String).toList : Text) = ['x', ' ', '=', ' '] := String.toList_ofList
  have hi : ((" import " : String).toList : Text) = ' ' :: 'i' :: ['m', 'p', 'o', 'r', 't', ' '] :=
    String.toList_ofList
  rw [callLine, hx, hi, Text.has_eq_false_iff]
  intro hin
  simp only [cons_append, nil_append, infix_cons_iff, cons_prefix_cons] at hin
  rcases hin with ⟨hc, -⟩ | ⟨-, hc, -⟩ | ⟨hc, -⟩ | ⟨-, hin⟩ | hin
  · exact absurd hc (by decide)
  · exact absurd hc (by decide)
  · exact absurd hc (by decide)
  · exact hb (hin.subset (by simp))
  · exact hb (hin.subset (by simp))

theorem exists_callTail : ∃ c rest, callTail name = '.' :: c :: rest ∧ endsName c = false := by
  obtain ⟨c, cs, rfl⟩ := exists_cons_of_ne_nil (ne_nil_of_isIdentifier h)
  exact ⟨c, _, rfl, endsName_of_isIdentifier h mem_cons_self⟩

/-! ### Names without the module -/

theorem lineOf_callLine (hl : ¬ ("QtGui" : Text) <:+: name) :
    LineOf "QtGui" "x = " [⟨"QtGui", callTail name⟩] (callLine "QtGui" name) := by
  have ht : ¬ ("QtGui" : Text) <:+: callTail name := fun hin => by
    rcases infix_cons_iff.mp hin with hp | hin
    · exact absurd (cons_prefix_cons.mp hp).1 (by decide)
    · rcases infix_or_infix_of_head (by decide) hin with hin | hin
      · exact hl hin
      · exact absurd (hin.subset (show 'Q' ∈ ("QtGui" : Text) by decide)) (by decide)
  have hs : Reference.Sound "QtGui" ⟨"QtGui", callTail name⟩ :=
    ⟨isModuleName_gui, fun _ => rfl, exists_callTail h, ht⟩
  exact ⟨by simp [callLine, referencesText], not_infix_front, forall_mem_singleton.mpr hs,
    isCode_callLine _ _, has_import_callLine h (by decide)⟩

theorem trim_nameIn_callTail : Text.trim (nameIn (Reference.behind ⟨"QtGui", callTail name⟩ [])) = name := by
  have hn : nameIn (Reference.behind ⟨"QtGui", callTail name⟩ []) = name := by
    rw [Reference.behind, callTail, referencesText, append_nil, drop_one, tail_cons, nameIn,
      takeWhile_append_of_pos fun c hc => by rw [endsName_of_isIdentifier h hc]; rfl,
      takeWhile_cons_of_neg (by decide), append_nil]
  have ht := Text.trim_append (ne_nil_of_isIdentifier h)
    (fun c hc => isBlank_of_isNamePart (isNamePart_of_mem h hc)) []
  rw [hn, ← append_nil name, ht]
  rfl

theorem retargetAll_callLine (hla : ¬ ("QtGui" : Text) <:+: name) (p : Progress) :
    ∃ q, retargetAll guiPasses p [callLine "QtGui" name] =
      .ok ([callLine (presentModule name) name], q) := by
  have hl := lineOf_callLine h hla
  have hn := namesAll_of_settled guiPasses p [callLine "QtGui" name] (fun _ hp => hp)
    (forall_mem_singleton.mpr fun _ _ => ⟨_, _, hl⟩)
  obtain ⟨out, q, ho, hw⟩ := exists_retargetAll guiPasses p _ guiPasses_known hn
  obtain ⟨line', rest, hl', hr, rfl⟩ := forall₂_cons_left_iff.mp hw
  rw [forall₂_nil_left_iff.mp hr] at ho
  refine ⟨q, ho.trans ?_⟩
  rw [hl.writesAll hl', retargeted, if_pos rfl, trim_nameIn_callTail h]
  simp [callLine, referencesText, retargeted]

theorem calledIn_iff (hl : ¬ ("QtGui" : Text) <:+: name) :
    CalledIn module name ↔ module = presentModule name := by
  constructor
  · intro hc
    obtain ⟨q, hq⟩ := hc .initial
    obtain ⟨q', hq'⟩ := retargetAll_callLine h hl .initial
    have hli := congrArg Prod.fst (Except.ok.inj (hq.symm.trans hq'))
    exact callLine_inj.mp (head_eq_of_cons_eq hli)
  · rintro rfl
    exact retargetAll_callLine h hl

/-! ### Names with the module -/

theorem namesBehind_callLine : namesBehind "QtGui" (callLine "QtGui" name) = [name] := by
  obtain ⟨c, cs, rfl⟩ := exists_cons_of_ne_nil (ne_nil_of_isIdentifier h)
  have hm : ("QtGui" : Text) ++ (("." : String).toList : Text) = ("QtGui" : Text) ++ ['.'] := by decide
  have hli : callLine "QtGui" (c :: cs) = (("x = QtGui" : Text) ++ ['.']) ++ c :: (cs ++ ['(', ')', '\n']) := by
    simp [callLine, callTail]
  have hbe : ∀ k < (("x = QtGui" : Text) ++ ['.']).length, 0 ≤ k →
      ¬ ("QtGui" : Text) ++ ['.'] <:+ [] ++ (("x = QtGui" : Text) ++ ['.']).take k := fun k hk _ => by
    rw [take_append_of_le_length (by simpa using Nat.le_of_lt_succ hk)]
    exact not_suffix_module (by decide) (by simp)
  have hh : (("QtGui" : Text) ++ ['.']).reverse.isPrefixOf (("x = QtGui" : Text) ++ ['.']).reverse := by
    decide
  have hl : nameLength (c :: (cs ++ ['(', ')', '\n'])) = (c :: cs).length := by
    rw [nameLength, ← cons_append, takeWhile_append_of_pos fun d hd => by rw [endsName_of_isIdentifier h hd]; rfl,
      takeWhile_cons_of_neg (by decide), append_nil]
  -- behind the first character of the name no dot follows
  have hb : ∀ k, ¬ ("QtGui" : Text) ++ ['.'] <:+
      ((("x = QtGui" : Text) ++ ['.']) ++ [c]) ++ (cs ++ ['(', ')', '\n']).take k := fun k => by
    have hdot := notMem_of_isIdentifier h (c := '.') (by decide)
    rw [mem_cons, not_or] at hdot
    refine not_suffix_module (by simp [hdot.2]) ?_
    rintro - ⟨u, hu⟩
    refine hdot.1 ?_
    rw [← append_assoc] at hu
    simpa using (append_inj' hu rfl).2
  have hre := @namesGo_pass (("QtGui" : Text) ++ ['.']) (c :: (cs ++ ['(', ')', '\n'])) _ 0 [] hbe
  have hr := @namesGo_pass (("QtGui" : Text) ++ ['.']) [] (cs ++ ['(', ')', '\n'])
    cs.length ((("x = QtGui" : Text) ++ ['.']) ++ [c]) fun k _ _ => hb k
  have he : ¬ (("QtGui" : Text) ++ ['.']).reverse.isPrefixOf
      (((("x = QtGui" : Text) ++ ['.']) ++ [c]) ++ (cs ++ ['(', ')', '\n'])).reverse := by
    rw [ isPrefixOf_iff_prefix, reverse_prefix]
    have hw := hb (cs ++ ['(', ')', '\n']).length
    rwa [take_length] at hw
  rw [append_nil, show cs.length - (cs ++ ['(', ')', '\n']).length = 0 by simp, namesGo, if_neg he] at hr
  rw [namesBehind, hm, hli]
  refine hre.trans ?_
  rw [nil_append, Nat.zero_sub, namesGo, if_pos hh,
    if_neg (by rw [endsName_of_isIdentifier h mem_cons_self]; decide), hl,
    ← cons_append, take_left, length_cons, Nat.add_sub_cancel,
    ← reverse_concat, hr]

omit h in
theorem two_le_namesAsked (hin : ("QtGui" : Text) <:+: name) : 2 ≤ namesAsked "QtGui" (callLine "QtGui" name) := by
  have hne := module_ne_nil isModuleName_gui
  have hta : ("QtGui" : Text) <:+: callTail name :=
    hin.trans ((prefix_append _ _).isInfix.trans (suffix_cons _ _).isInfix)
  obtain ⟨piece, next, rest, hp⟩ := Text.exists_splitOn_of_infix hne hta
  have hpi : piece ≠ [] := by
    rintro rfl
    have ht := Text.flatten_splitOn hne hp
    rw [nil_append, map_cons, flatten_cons, callTail] at ht
    exact absurd (head_eq_of_cons_eq ht) (by decide)
  have hs : (callLine "QtGui" name).splitOn "QtGui" = ("x = " : Text) :: (callTail name).splitOn "QtGui" := by
    rw [callLine, Text.splitOn, ← append_nil (callTail name), splitGo_reference isModuleName_gui not_infix_front]
    rfl
  rw [namesAsked, hs, hp, dropLast_cons_cons, dropLast_cons_cons,
    filter_cons_of_pos (by decide), filter_cons_of_pos (by simpa using hpi)]
  simp only [length_cons]
  omega

theorem unnamed_callLine (hin : ("QtGui" : Text) <:+: name) : unnamed "QtGui" (callLine "QtGui" name) ≠ 0 := by
  have ha := two_le_namesAsked hin
  have hh : (callLine "QtGui" name).has "QtGui" :=
    Text.has_iff_infix.mpr ⟨"x = ", callTail name, by rw [callLine, append_assoc]⟩
  rw [unnamed, isCode_callLine, has_import_callLine h (by decide), hh, namesBehind_callLine h,
    if_neg (by simp), length_singleton]
  omega

end Call

/-! ### Lines that are noted -/

section Noted

variable {old new : Text} {classes : List Text}

theorem length_retargetLine {line : Text} {r : Retargeted}
    (h : retargetLine old new classes p line = .ok r) : r.lines.length = 2 * unnamed old line + 1 := by
  obtain ⟨-, indent, written, hl⟩ := retargetLine_spec h
  rw [hl]
  simp [length_flatten]
  omega

theorem two_le_length_retargetGo {q : Progress} : ∀ {lines out : List Text},
    retargetGo old new classes 0 p lines = .ok (out, q) → 2 ≤ lines.length → 2 ≤ out.length
  | first :: second :: lines, out, h, _ => by
    obtain ⟨r, rest, hr, hre, rfl⟩ := retargetGo_cons_eq_ok.mp h
    have hf := length_retargetLine hr
    rw [length_append, hf]
    rcases Nat.eq_zero_or_pos (unnamed old first) with hz | hp
    · rw [hz] at hre
      obtain ⟨r', rest', hr', -, rfl⟩ := retargetGo_cons_eq_ok.mp hre
      have hs := length_retargetLine hr'
      rw [length_append, hs]
      omega
    · omega

theorem two_le_length_retargetAll : ∀ {passes : List (Text × Text)} {p q : Progress} {lines out : List Text},
    retargetAll passes p lines = .ok (out, q) → 2 ≤ lines.length → 2 ≤ out.length
  | [], _, _, lines, out, h, hl => by
    cases h
    exact hl
  | (old, new) :: passes, p, q, lines, out, h, hl => by
    obtain ⟨⟨mids, p'⟩, hm, h⟩ := bind_eq_ok.mp h
    rw [retarget] at hm
    split at hm
    · cases hm
    · exact two_le_length_retargetAll h (two_le_length_retargetGo hm hl)

end Noted

theorem not_calledIn {name : Text} (h : isIdentifier name) (hin : ("QtGui" : Text) <:+: name)
    (module : Text) : ¬ CalledIn module name := by
  intro hc
  obtain ⟨q, hq⟩ := hc .initial
  rw [guiPasses, retargetAll] at hq
  obtain ⟨⟨mids, p⟩, hm, hq⟩ := bind_eq_ok.mp hq
  rw [retarget] at hm
  split at hm
  · cases hm
  · obtain ⟨r, rest, hr, -, rfl⟩ := retargetGo_cons_eq_ok.mp hm
    have hl := length_retargetLine hr
    have hu := unnamed_callLine h hin
    have ht := two_le_length_retargetAll hq (by rw [length_append]; omega)
    exact absurd ht (by simp)

/-! ## The two ways of naming a class -/

section Modules

variable {name : Text}

theorem presentModule_of_notMem (hso : name ≠ "QSound") (hs : ∀ m ∈ movedTo, name ∉ m.2) :
    presentModule name = "QtGui" := by
  simp only [movedTo, forall_mem_cons, not_mem_nil, false_implies, implies_true, and_true] at hs
  obtain ⟨hc, hw, hp⟩ := hs
  have hm : name ≠ "QStringListModel" := fun heq => hc (heq ▸ listModel_mem_core)
  rw [presentModule, if_neg (by simpa using hso), if_neg (by simpa using ⟨hm, hc⟩),
    if_neg (by simpa using hw), if_neg (by simpa using hp)]

theorem newModule_of_mem_movedTo {m : Text × List Text} (hm : m ∈ movedTo) (hn : name ∈ m.2) :
    newModule name = m.1 := by
  refine @newModule_of_mem m ?_ name hn
  simp only [movedTo, mem_cons, not_mem_nil, or_false] at hm
  rcases hm with rfl | rfl | rfl <;> simp [newHomes]

theorem newModule_of_mem_multimedia (hm : name ∈ Catalogue.multimedia) : newModule name = "QtMultimedia" :=
  @newModule_of_mem ("QtMultimedia", Catalogue.multimedia) (by simp [newHomes]) name hm

theorem sound_notMem_multimedia : ("QSound" : Text) ∉ Catalogue.multimedia := fun hm =>
  Catalogue.sound_notMem_movedClasses
    (flatMap_newHomes ▸ mem_flatMap.mpr ⟨("QtMultimedia", Catalogue.multimedia), by simp [newHomes], hm⟩)

theorem newModule_eq_presentModule_iff :
    newModule name = presentModule name ↔ name ≠ "QSound" ∧ name ∉ Catalogue.multimedia := by
  constructor
  · intro heq
    constructor
    · rintro rfl
      rw [newModule_of_notMem Catalogue.sound_notMem_movedClasses, presentModule, if_pos (by decide)] at heq
      exact absurd heq (by decide)
    · intro hme
      have hs : presentModule name = "QtGui" := by
        refine presentModule_of_notMem (fun hso => ?_) fun m hm hn => ?_
        · exact sound_notMem_multimedia (hso ▸ hme)
        · have hmodule : m.1 = "QtMultimedia" :=
            (newModule_of_mem_movedTo hm hn).symm.trans (newModule_of_mem_multimedia hme)
          simp only [movedTo, mem_cons, not_mem_nil, or_false] at hm
          rcases hm with rfl | rfl | rfl <;> exact absurd hmodule (by decide)
      rw [newModule_of_mem_multimedia hme, hs] at heq
      exact absurd heq (by decide)
  · rintro ⟨hso, hme⟩
    by_cases hmo : ∃ m ∈ movedTo, name ∈ m.2
    · obtain ⟨m, hm, hn⟩ := hmo
      rw [newModule_of_mem_movedTo hm hn, presentModule_of_mem hm hn]
    · have hs : ∀ m ∈ movedTo, name ∉ m.2 := fun m hm hn => hmo ⟨m, hm, hn⟩
      rw [presentModule_of_notMem hso hs]
      refine newModule_of_notMem fun hl => ?_
      simp only [movedTo, forall_mem_cons, not_mem_nil, false_implies, implies_true, and_true] at hs
      simp only [Catalogue.movedClasses, mem_append, hs, hme, or_false] at hl

end Modules

/-- **Both ways of naming a class agree exactly on the identifiers that are no class for sound and do not
contain the name of the module.** -/
theorem namings_agree_iff {name : Text} (h : isIdentifier name = true) :
    (∀ module, FiledIn module name ↔ CalledIn module name) ↔
      name ≠ "QSound" ∧ name ∉ Catalogue.multimedia ∧ ¬ ("QtGui" : Text) <:+: name := by
  rw [← and_assoc, ← newModule_eq_presentModule_iff]
  by_cases hin : ("QtGui" : Text) <:+: name
  · -- the name is sorted to some module, and called in none
    refine iff_of_false (fun hagree => ?_) fun hright => hright.2 hin
    exact not_calledIn h hin _ ((hagree _).mp ((filedIn_iff h).mpr rfl))
  · simp only [filedIn_iff h, calledIn_iff h hin, hin, not_false_eq_true, and_true]
    exact ⟨fun hagree => (hagree _).mp rfl, fun heq module => by rw [heq]⟩

/-- A button is called where it is imported from. -/
theorem namings_agree_iff_button : isIdentifier "QPushButton" = true ∧
    ∀ module, FiledIn module "QPushButton" ↔ CalledIn module "QPushButton" := by
  refine ⟨by decide, (namings_agree_iff (by decide)).mpr ⟨by decide, by decide, ?_⟩⟩
  exact fun hin => absurd (hin.subset (show 'G' ∈ ("QtGui" : Text) by decide)) (by decide)

/-- **The class for sound is imported from one module and called in another.** -/
theorem sound_named_apart : FiledIn "QtGui" "QSound" ∧ CalledIn "QtMultimedia" "QSound" ∧
    ¬ CalledIn "QtGui" "QSound" := by
  have hname : isIdentifier "QSound" = true := by decide
  have hlacks : ¬ ("QtGui" : Text) <:+: "QSound" := fun hin =>
    absurd (hin.subset (show 'G' ∈ ("QtGui" : Text) by decide)) (by decide)
  have hpresent : presentModule "QSound" = "QtMultimedia" := by rw [presentModule, if_pos (by decide)]
  rw [filedIn_iff hname, calledIn_iff hname hlacks, calledIn_iff hname hlacks, hpresent,
    newModule_of_notMem Catalogue.sound_notMem_movedClasses]
  exact ⟨rfl, rfl, by decide⟩

end QtMigration
