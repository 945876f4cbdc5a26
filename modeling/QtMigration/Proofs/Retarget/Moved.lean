import QtMigration.Proofs.Catalogue
import QtMigration.Proofs.Frame.Pipeline
import QtMigration.Proofs.Retarget.Reference
import QtMigration.Proofs.Text.Trim

/-!
# Proofs/Retarget/Moved — which references move with their class

The classes that left the graphics module are moved by three passes.
-/

namespace QtMigration

open List Text

variable {m name : Text}

/-! ## Lines whose references are all qualified -/

/-- A dot, and behind it a character that does not end a name. -/
def startsName : Text → Bool
  | d :: c :: _ => d == '.' && !endsName c
  | _ => false

/-- **Every occurrence of the module is followed by a dot and a name.** -/
def qualified (old line : Text) : Bool := ((line.splitOn old).drop 1).all startsName

def references (old line : Text) : List Reference :=
  ((line.splitOn old).drop 1).map fun tail => ⟨old, tail⟩

section References

variable {old line : Text}

theorem referencesText_map (old : Text) (tails : List Text) :
    referencesText (tails.map fun tail => ⟨old, tail⟩) = (tails.map (old ++ ·)).flatten := by
  induction tails with
  | nil => rfl
  | cons tail tails ih => rw [map_cons, referencesText, ih]; simp

theorem firstPiece_append_references (ho : old ≠ []) (line : Text) :
    line.firstPiece old ++ referencesText (references old line) = line := by
  rw [references, referencesText_map]
  exact flatten_splitOn ho rfl

theorem firstPiece_lacks (ho : old ≠ []) (line : Text) : ¬ old <:+: line.firstPiece old :=
  splitOn_lacks ho (s := line) (by rw [Text.splitOn, Text.firstPiece]; exact mem_cons_self)

theorem sound_references (ho : isModuleName old) (h : qualified old line) :
    ∀ r ∈ references old line, r.Sound old := by
  intro r hr
  obtain ⟨tail, ht, rfl⟩ := mem_map.mp hr
  refine ⟨ho, fun _ => rfl, ?_, splitOn_lacks (module_ne_nil ho) (mem_of_mem_drop ht)⟩
  have hs := all_eq_true.mp h tail ht
  match tail, hs with
  | d :: c :: rest, hs =>
    simp only [startsName, Bool.and_eq_true, beq_iff_eq, Bool.not_eq_true'] at hs
    exact ⟨c, rest, by rw [hs.1], hs.2⟩

end References

/-! ## What the passes leave alone -/

section Frame

variable {old : Text} {choose : Text → Text}

theorem infix_references {piece : Text} {c : Char} {cs : Text} (hp : piece = c :: cs)
    (hb : Text.isBlank c) (hQ : 'Q' ∉ piece) : ∀ {refs : List Reference} {front : Text},
      (∀ r ∈ refs, isModuleName r.module) →
      (piece <:+: front ++ referencesText refs ↔ piece <:+: front ∨ ∃ r ∈ refs, piece <:+: r.tail)
  | [], front, _ => by simp [referencesText]
  | r :: rs, front, hn => by
    obtain ⟨hr, hrs⟩ := forall_mem_cons.mp hn
    have ih := @infix_references piece c cs hp hb hQ rs r.tail hrs
    obtain ⟨q, hq, -, hch⟩ := exists_of_isModuleName hr
    have ho : c ∉ r.module := fun hc => by rw [(hch c hc).1] at hb; cases hb
    rw [referencesText, append_assoc, exists_mem_cons_iff, ← ih]
    constructor
    · intro h
      rw [hq, cons_append] at h
      refine (infix_or_infix_of_head (fun hm => hQ (mem_of_mem_drop hm)) h).imp_right
        fun h => ?_
      rw [← cons_append, ← hq] at h
      rcases infix_append_cases h with h | h | ⟨l, t, heq, hl, -, hs, -⟩
      · exact absurd (h.subset (hp ▸ mem_cons_self)) ho
      · exact h
      · -- an occurrence that begins in the module begins with one of its characters
        obtain ⟨d, l, rfl⟩ := exists_cons_of_ne_nil hl
        obtain ⟨rfl, -⟩ := cons.inj (hp.symm.trans heq)
        exact absurd (hs.subset mem_cons_self) ho
    · rintro (h | h)
      · exact h.trans (prefix_append _ _).isInfix
      · rw [← append_assoc]
        exact h.trans (suffix_append _ _).isInfix

theorem retargeted_tails (old : Text) (choose : Text → Text) : ∀ refs : List Reference,
    (retargeted old choose refs).map Reference.tail = refs.map Reference.tail
  | [] => rfl
  | r :: rs => by
    rw [retargeted, map_cons, map_cons, retargeted_tails old choose rs]
    split <;> rfl

theorem isCode_retargeted {refs : List Reference} {front : Text} (hn : ∀ r ∈ refs, isModuleName r.module)
    (hn' : ∀ r ∈ retargeted old choose refs, isModuleName r.module) :
    Text.isCode (front ++ referencesText (retargeted old choose refs)) =
      Text.isCode (front ++ referencesText refs) := by
  cases refs with
  | nil => rfl
  | cons r rs =>
    rw [retargeted] at hn' ⊢
    obtain ⟨q, hq, -⟩ := exists_of_isModuleName (hn r mem_cons_self)
    obtain ⟨q', hq', -⟩ := exists_of_isModuleName (hn' _ mem_cons_self)
    rw [referencesText, referencesText, hq', hq]
    simp only [cons_append]
    exact (isCode_append_cons (by decide) _ _).trans (isCode_append_cons (by decide) _ _).symm

theorem has_import_retargeted {refs : List Reference} {front : Text}
    (hn : ∀ r ∈ refs, isModuleName r.module)
    (hn' : ∀ r ∈ retargeted old choose refs, isModuleName r.module) :
    Text.has (front ++ referencesText (retargeted old choose refs)) " import " =
      Text.has (front ++ referencesText refs) " import " := by
  have hp : ((" import " : String).toList : Text) = [' ', 'i', 'm', 'p', 'o', 'r', 't', ' '] :=
    String.toList_ofList
  have ht : ∀ refs : List Reference, (∃ r ∈ refs, (" import " : Text) <:+: r.tail) ↔
      ∃ tail ∈ refs.map Reference.tail, (" import " : Text) <:+: tail := fun refs => by simp
  rw [Bool.eq_iff_iff, has_iff_infix, has_iff_infix,
    infix_references hp (by decide) (by rw [hp]; decide) hn',
    infix_references hp (by decide) (by rw [hp]; decide) hn, ht, ht,
    retargeted_tails]

end Frame

/-! ## The modules that the passes choose -/

/-- The modules in which the classes of the graphics module are now. -/
def guiModules : List Text := ["QtGui", "QtCore", "QtWidgets", "QtPrintSupport", "QtMultimedia"]

theorem isModuleName_of_mem (hm : m ∈ guiModules) : isModuleName m :=
  all_eq_true.mp (show guiModules.all isModuleName by decide) m hm

theorem gui_mem : ("QtGui" : Text) ∈ guiModules := mem_cons_self

theorem isModuleName_gui : isModuleName "QtGui" := isModuleName_of_mem gui_mem

theorem gui_mem_splitModules : ("QtGui" : Text) ∈ splitModules := mem_cons_self

theorem eq_gui_of_prefix (hm : m ∈ guiModules) (h : ("QtGui" : Text) <+: m) : m = "QtGui" := by
  revert m
  simp [guiModules]

theorem moduleFor_blind {new : Text} {classes : List Text} (hcl : classes ⊆ Catalogue.movedClasses)
    (hm : m ∈ guiModules) (u : Text) :
    moduleFor "QtGui" new classes (Text.trim (u ++ m)) = "QtGui" := by
  have hn := isModuleName_of_mem hm
  obtain ⟨-, -, -, hch⟩ := exists_of_isModuleName hn
  have hs := suffix_trim (module_ne_nil hn) (fun c hc => (hch c hc).1) u
  generalize Text.trim (u ++ m) = name at hs
  obtain ⟨hqt, hl, hsound, hmo⟩ :=
    (show ∀ m ∈ guiModules, ['Q', 't'] <+: m ∧ 2 < m.length ∧ ¬ m <:+ ("QSound" : Text) ∧
      ¬ m <:+ ("QStringListModel" : Text) by decide) m hm
  have hclass : name ∉ classes := fun hmem =>
    Catalogue.not_suffix_of_mem (hcl hmem) hqt hl hs
  have hnot : ∀ other : Text, ¬ m <:+ other → ¬ (name == other) :=
    fun other ho heq => ho (beq_iff_eq.mp heq ▸ hs)
  rw [moduleFor, if_neg (hnot _ hsound), if_neg (hnot _ hmo), if_neg (by simpa using hclass)]

/-! ## Passes one after the other -/

/-- The choice of two passes: the second one chooses where the first one has left the module. -/
def chooseThen (old : Text) (first second : Text → Text) (name : Text) : Text :=
  if first name = old then second name else first name

section Passes

variable {old : Text}

theorem nameIn_references {r : Reference} (hr : r.Sound old) (rs : List Reference) :
    nameIn (referencesText (r :: rs)) = r.module := by
  obtain ⟨c, rest, ht, -⟩ := hr.dotted
  obtain ⟨-, -, -, hch⟩ := exists_of_isModuleName hr.named
  rw [referencesText, ht, nameIn, append_assoc, cons_append,
    takeWhile_append_of_pos (fun c hc => by rw [(hch c hc).2]; rfl),
    takeWhile_cons_of_neg (by decide), append_nil]

theorem nameIn_behind (r : Reference) (rs : List Reference) : nameIn (r.behind rs) =
      if (nameIn (r.tail.drop 1)).length = (r.tail.drop 1).length
      then r.tail.drop 1 ++ nameIn (referencesText rs) else nameIn (r.tail.drop 1) :=
  takeWhile_append

variable {first second : Text → Text} (hf : ∀ name, isModuleName (first name))
  (hs : ∀ name, old <+: first name → first name = old)
include hf hs

theorem sound_retargeted : ∀ {refs : List Reference},
    (∀ r ∈ refs, r.Sound old) → ∀ r ∈ retargeted old first refs, r.Sound old
  | [], _ => by simp [retargeted]
  | r :: rs, hsound => by
    obtain ⟨hr, hrs⟩ := forall_mem_cons.mp hsound
    rw [retargeted, forall_mem_cons]
    refine ⟨?_, sound_retargeted hrs⟩
    split
    · exact ⟨hf _, hs _, hr.dotted, hr.lacks⟩
    · exact hr

variable (hb : ∀ u name, second (Text.trim (u ++ first name)) = old) (hb' : ∀ u, second (Text.trim (u ++ old)) = old)
include hb hb'

/-- **The second pass reads the same names as the first**, unless a name goes on into the next module;
such a name is none for either of them. -/
theorem choose_behind_retargeted (r : Reference) {rs : List Reference} (hrs : ∀ r ∈ rs, r.Sound old) :
    second (nameIn (r.behind (retargeted old first rs))).trim = second (nameIn (r.behind rs)).trim := by
  rw [nameIn_behind, nameIn_behind]
  split
  · cases rs with
    | nil => rfl
    | cons r' rs =>
      have hsound := sound_retargeted hf hs hrs
      rw [nameIn_references (hrs r' mem_cons_self)]
      rw [retargeted] at hsound ⊢
      rw [nameIn_references (hsound _ mem_cons_self)]
      split
      next ht => rw [ht, hb, hb']
      next => rfl
  · rfl

theorem retargeted_retargeted : ∀ {refs : List Reference}, (∀ r ∈ refs, r.Sound old) →
      retargeted old second (retargeted old first refs) = retargeted old (chooseThen old first second) refs
  | [], _ => rfl
  | r :: rs, hsound => by
    obtain ⟨-, hrs⟩ := forall_mem_cons.mp hsound
    rw [retargeted, retargeted, retargeted, retargeted_retargeted hrs]
    by_cases ht : r.module = old
    · rw [if_pos ht, if_pos ht, chooseThen]
      split
      · exact congrArg (fun m => Reference.mk m r.tail :: _)
          (choose_behind_retargeted hf hs hb hb' ⟨_, r.tail⟩ hrs)
      · rfl
    · rw [if_neg ht, if_neg ht, if_neg ht]

end Passes

/-! ## Where a class is now -/

/-- **The module in which a class of the graphics module is now.** -/
def presentModule (name : Text) : Text :=
  if name == "QSound" then "QtMultimedia"
  else if name == "QStringListModel" || Catalogue.core.contains name then "QtCore"
  else if Catalogue.widgets.contains name then "QtWidgets"
  else if Catalogue.printSupport.contains name then "QtPrintSupport"
  else "QtGui"

/-- The modules to which classes have moved, with these classes. -/
def movedTo : List (Text × List Text) :=
  [("QtCore", Catalogue.core), ("QtWidgets", Catalogue.widgets),
    ("QtPrintSupport", Catalogue.printSupport)]

theorem movedTo_subset {m : Text × List Text} (hm : m ∈ movedTo) : m.2 ⊆ Catalogue.movedClasses := by
  intro name hn
  rw [Catalogue.movedClasses, mem_append, mem_append, mem_append]
  simp only [movedTo, mem_cons, not_mem_nil, or_false] at hm
  rcases hm with rfl | rfl | rfl
  · exact .inl (.inl (.inl hn))
  · exact .inl (.inl (.inr hn))
  · exact .inr hn

theorem listModel_mem_core : ("QStringListModel" : Text) ∈ Catalogue.core := by
  rw [Catalogue.core]
  exact mem_map_of_mem (by simp)

theorem presentModule_of_mem {m : Text × List Text} (hm : m ∈ movedTo)
    (hn : name ∈ m.2) : presentModule name = m.1 := by
  have hsound : ¬ (name == ("QSound" : Text)) := fun heq =>
    Catalogue.sound_notMem_movedClasses (beq_iff_eq.mp heq ▸ movedTo_subset hm hn)
  obtain ⟨hw, hp⟩ : (∀ c ∈ Catalogue.core, c ∉ Catalogue.widgets) ∧
      ∀ c ∈ Catalogue.core ++ Catalogue.widgets, c ∉ Catalogue.printSupport := by
    have hno := Catalogue.nodup_movedClasses
    rw [Catalogue.movedClasses, nodup_append] at hno
    refine ⟨fun c hc hc' => ?_, fun c hc hc' => ?_⟩
    · have h := (nodup_append.mp hno.1).1
      exact (nodup_append.mp h).2.2 c hc c hc' rfl
    · exact hno.2.2 c (mem_append_left _ hc) c hc' rfl
  have hco : name ∉ Catalogue.core →
      ¬ (name == ("QStringListModel" : Text) || Catalogue.core.contains name) := by
    intro ho
    rw [Bool.or_eq_true, beq_iff_eq, contains_eq_mem, decide_eq_true_eq]
    rintro (rfl | hin)
    · exact ho listModel_mem_core
    · exact ho hin
  rw [presentModule, if_neg hsound]
  simp only [movedTo, mem_cons, not_mem_nil, or_false] at hm
  rcases hm with rfl | rfl | rfl
  · rw [if_pos (by simp [show name ∈ Catalogue.core from hn])]
  · rw [if_neg (hco fun h => hw name h hn),
      if_pos (by simpa using show name ∈ Catalogue.widgets from hn)]
  · have ho : ¬ (name ∈ Catalogue.core ∨ name ∈ Catalogue.widgets) := fun h =>
      hp name (mem_append.mpr h) hn
    rw [not_or] at ho
    rw [if_neg (hco ho.1), if_neg (by simpa using ho.2),
      if_pos (by simpa using show name ∈ Catalogue.printSupport from hn)]

section Choice

theorem moduleFor_mem (new : Text) (hn : new ∈ guiModules) (classes : List Text) (name : Text) :
    moduleFor "QtGui" new classes name ∈ guiModules := by
  rw [moduleFor]
  (repeat' split)
  · simp [guiModules]
  · simp [guiModules]
  · exact hn
  · simp [guiModules]

theorem chooseThen_mem {first second : Text → Text} (hf : ∀ name, first name ∈ guiModules)
    (hs : ∀ name, second name ∈ guiModules) (name : Text) :
    chooseThen "QtGui" first second name ∈ guiModules := by
  rw [chooseThen]
  split
  · exact hs name
  · exact hf name

theorem chooseThen_moduleFor : chooseThen "QtGui" (chooseThen "QtGui"
      (moduleFor "QtGui" "QtCore" Catalogue.core) (moduleFor "QtGui" "QtWidgets" Catalogue.widgets))
      (moduleFor "QtGui" "QtPrintSupport" Catalogue.printSupport) = presentModule := by
  have hne : ("QtMultimedia" : Text) ≠ "QtGui" ∧ ("QtCore" : Text) ≠ "QtGui" ∧
      ("QtWidgets" : Text) ≠ "QtGui" := by decide
  funext name
  simp only [chooseThen, moduleFor, presentModule]
  by_cases hsound : (name == ("QSound" : Text))
  · simp only [hsound, if_true, if_neg hne.1]
  by_cases hm : (name == ("QStringListModel" : Text))
  · simp only [hsound, hm, if_true, if_false, Bool.true_or, if_neg hne.2.1, Bool.false_eq_true]
  by_cases hc : Catalogue.core.contains name
  · simp only [hsound, hm, hc, if_true, if_false, Bool.or_true, if_neg hne.2.1, Bool.false_eq_true]
  by_cases hw : Catalogue.widgets.contains name
  · simp only [hsound, hm, hc, hw, if_true, if_false, Bool.or_false, if_neg hne.2.2, Bool.false_eq_true]
  · simp only [hsound, hm, hc, hw, if_true, if_false, Bool.or_false, Bool.false_eq_true]

/-- **A text that is not one word is none of a class**: the graphics module stays before it, and is
noted. -/
theorem moduleOf_of_not_word (new : Text) {classes : List Text} (p : Progress)
    (hc : classes ⊆ Catalogue.movedClasses)
    (he : ∀ c ∈ name, endsName c = false) (hw : name.all Text.isWord = false) :
    moduleOf "QtGui" new classes p name = (("QtGui" : Text), p.note "QtGui") := by
  have ho : ∀ other : Text, other.all Text.isWord → ¬ (name == other) := by
    intro other ha heq
    rw [beq_iff_eq.mp heq, ha] at hw
    cases hw
  have hout : ¬ classes.contains name := by
    rw [contains_eq_mem, decide_eq_true_eq]
    intro hin
    rw [Catalogue.all_isWord_of_mem (hc hin) he] at hw
    cases hw
  rw [moduleOf, if_neg (ho _ (by decide)), if_neg (ho _ (by decide)), if_neg hout]

theorem presentModule_of_not_word (he : ∀ c ∈ name, endsName c = false)
    (hwo : name.all Text.isWord = false) : presentModule name = "QtGui" := by
  have hs : ∀ m ∈ movedTo, moduleFor "QtGui" m.1 m.2 name = "QtGui" := fun m hm => by
    rw [← moduleOf_fst _ _ _ .initial, moduleOf_of_not_word m.1 .initial (movedTo_subset hm) he hwo]
  have hc : moduleFor "QtGui" "QtCore" Catalogue.core name = "QtGui" :=
    hs ("QtCore", Catalogue.core) (by simp [movedTo])
  have hw : moduleFor "QtGui" "QtWidgets" Catalogue.widgets name = "QtGui" :=
    hs ("QtWidgets", Catalogue.widgets) (by simp [movedTo])
  have hp : moduleFor "QtGui" "QtPrintSupport" Catalogue.printSupport name = "QtGui" :=
    hs ("QtPrintSupport", Catalogue.printSupport) (by simp [movedTo])
  rw [← chooseThen_moduleFor, chooseThen, chooseThen, if_pos hc, if_pos hw, hp]

variable {refs : List Reference} (hsound : ∀ r ∈ refs, r.Sound "QtGui")

include hsound

theorem sound_of_choice {choose : Text → Text} (hc : ∀ name, choose name ∈ guiModules) :
    ∀ r ∈ retargeted "QtGui" choose refs, r.Sound "QtGui" :=
  sound_retargeted (fun name => isModuleName_of_mem (hc name))
    (fun name => eq_gui_of_prefix (hc name)) hsound

theorem retargeted_then {first : Text → Text} (hf : ∀ name, first name ∈ guiModules)
    {new : Text} {classes : List Text} (hc : classes ⊆ Catalogue.movedClasses) :
    retargeted "QtGui" (moduleFor "QtGui" new classes) (retargeted "QtGui" first refs) =
      retargeted "QtGui" (chooseThen "QtGui" first (moduleFor "QtGui" new classes)) refs :=
  retargeted_retargeted (fun name => isModuleName_of_mem (hf name)) (fun name => eq_gui_of_prefix (hf name))
    (fun u name => moduleFor_blind hc (hf name) u)
    (fun u => moduleFor_blind hc gui_mem u) hsound

theorem retargeted_passes : retargeted "QtGui" (moduleFor "QtGui" "QtPrintSupport" Catalogue.printSupport)
        (retargeted "QtGui" (moduleFor "QtGui" "QtWidgets" Catalogue.widgets)
          (retargeted "QtGui" (moduleFor "QtGui" "QtCore" Catalogue.core) refs)) =
      retargeted "QtGui" presentModule refs := by
  have hc := moduleFor_mem "QtCore" (by simp [guiModules]) Catalogue.core
  have hw := moduleFor_mem "QtWidgets" (by simp [guiModules]) Catalogue.widgets
  rw [retargeted_then hsound hc (movedTo_subset (m := ("QtWidgets", _)) (by simp [movedTo])),
    retargeted_then hsound (chooseThen_mem hc hw)
      (movedTo_subset (m := ("QtPrintSupport", _)) (by simp [movedTo])), chooseThen_moduleFor]

end Choice

/-! ## Lists of lines -/

section Lines

variable {old new : Text} {classes : List Text}

theorem exists_retargetLine (new : Text) (classes : List Text) (hm : old ∈ splitModules)
    (p : Progress) {line : Text} (h : unnamed old line = 0) :
    ∃ line' q, retargetLine old new classes p line = .ok ⟨[line'], 0, q⟩ := by
  obtain ⟨r, hr⟩ : ∃ r, retargetLine old new classes p line = .ok r := by
    rw [retargetLine]
    split
    · exact ⟨_, rfl⟩
    next hin =>
      rw [if_neg (by simpa using hm)]
      split
      · exact ⟨_, rfl⟩
      next hn =>
        rw [Bool.not_eq_true] at hin
        rw [unnamed, if_neg (by rwa [hin, Bool.false_or, List.isEmpty_iff])] at h
        rw [retargetNames]
        dsimp only
        rw [if_pos]
        · exact ⟨_, rfl⟩
        · rw [Retargeting.missed_pieces, beq_iff_eq]
          rw [namesAsked] at h
          split at h
          next hs =>
            rw [if_pos hs, Retargeting.next_due, Retargeting.due]
            dsimp only
            omega
          next hs =>
            rw [if_neg hs, Retargeting.due]
            dsimp only
            omega
  obtain ⟨ho, indent, written, hl⟩ := retargetLine_spec hr
  rw [h] at ho hl
  obtain ⟨lines, passOver, q⟩ := r
  exact ⟨written, q, by rw [hr, show lines = [written] from hl, show passOver = 0 from ho]⟩

def Writes (old new line line' : Text) : Prop :=
  ∃ classes p q, Catalogue.classesOf? new = some classes ∧
    retargetLine old new classes p line = .ok ⟨[line'], 0, q⟩

theorem exists_retargetGo (hm : old ∈ splitModules)
    (hc : Catalogue.classesOf? new = some classes) : ∀ (lines : List Text) (p : Progress),
      (∀ line ∈ lines, unnamed old line = 0) → ∃ out q,
        retargetGo old new classes 0 p lines = .ok (out, q) ∧ List.Forall₂ (Writes old new) lines out
  | [], p, _ => ⟨[], p, rfl, .nil⟩
  | line :: lines, p, h => by
    obtain ⟨hl, hli⟩ := forall_mem_cons.mp h
    obtain ⟨line', q, hw⟩ := exists_retargetLine new classes hm p hl
    obtain ⟨out, q', hgo, ho⟩ := exists_retargetGo hm hc lines q hli
    refine ⟨line' :: out, q', ?_, .cons ⟨classes, p, q, hc, hw⟩ ho⟩
    exact retargetGo_cons_eq_ok.mpr ⟨_, out, hw, by rw [hl]; exact hgo, rfl⟩

theorem exists_written : ∀ {lines out : List Text}, List.Forall₂ (Writes old new) lines out →
    ∀ {line' : Text}, line' ∈ out → ∃ line ∈ lines, Writes old new line line'
  | _, _, .nil, _, hm => absurd hm not_mem_nil
  | _, _, .cons hli hl, _, hm => by
    rcases mem_cons.mp hm with rfl | hm
    · exact ⟨_, mem_cons_self, hli⟩
    · obtain ⟨line, hin, hw⟩ := exists_written hl hm
      exact ⟨line, mem_cons_of_mem _ hin, hw⟩

def WritesAll : List (Text × Text) → Text → Text → Prop
  | [], line, line' => line' = line
  | (old, new) :: passes, line, line' => ∃ mid, Writes old new line mid ∧ WritesAll passes mid line'

theorem writesAll_cons {passes : List (Text × Text)} : ∀ {lines mids out : List Text},
    List.Forall₂ (Writes old new) lines mids → List.Forall₂ (WritesAll passes) mids out →
      List.Forall₂ (WritesAll ((old, new) :: passes)) lines out
  | _, _, _, .nil, .nil => .nil
  | _, _, _, .cons hli hl, .cons hall ha =>
    .cons ⟨_, hli, hall⟩ (writesAll_cons hl ha)

theorem exists_retargetAll : ∀ (passes : List (Text × Text)) (p : Progress) (lines : List Text),
    (∀ pass ∈ passes, pass.1 ∈ splitModules ∧ (Catalogue.classesOf? pass.2).isSome) →
      namesAll passes p lines → ∃ out q,
        retargetAll passes p lines = .ok (out, q) ∧ List.Forall₂ (WritesAll passes) lines out
  | [], p, lines, _, _ => ⟨lines, p, rfl, forall₂_same.mpr fun _ _ => rfl⟩
  | (old, new) :: passes, p, lines, hp, hn => by
    obtain ⟨⟨hm, hs⟩, hp⟩ := forall_mem_cons.mp hp
    obtain ⟨classes, hc⟩ := Option.isSome_iff_exists.mp hs
    rw [namesAll, Bool.and_eq_true, all_eq_true] at hn
    obtain ⟨mids, q, hmi, hw⟩ := exists_retargetGo hm hc lines p
      fun line hl => by simpa using hn.1 line hl
    have hr : retarget old new p lines = .ok (mids, q) := by rw [retarget, hc]; exact hmi
    rw [hr] at hn
    obtain ⟨out, q', ho, ha⟩ := exists_retargetAll passes q mids hp hn.2
    refine ⟨out, q', by rw [retargetAll, hr]; exact ho, ?_⟩
    exact writesAll_cons hw ha

end Lines

/-! ## Lines of references under the passes -/

/-- **A line is a front and references**, in code and outside of imports. -/
structure LineOf (old front : Text) (refs : List Reference) (line : Text) : Prop where
  text : line = front ++ referencesText refs
  lacks : ¬ old <:+: front
  sound : ∀ r ∈ refs, r.Sound old
  code : line.isCode = true
  notImport : line.has " import " = false

namespace LineOf

variable {old new front line line' : Text} {classes : List Text} {refs : List Reference}

theorem of_qualified (ho : isModuleName old) (hc : line.isCode)
    (hi : line.has " import " = false) (hq : qualified old line) :
    LineOf old (line.firstPiece old) (references old line) line :=
  ⟨(firstPiece_append_references (module_ne_nil ho) line).symm,
    firstPiece_lacks (module_ne_nil ho) line, sound_references ho hq, hc, hi⟩

theorem retargetLine_eq (h : LineOf old front refs line) (ho : isModuleName old)
    (hm : old ∈ splitModules) (new : Text) (classes : List Text) (p : Progress) :
    retargetLine old new classes p line =
      .ok ⟨[front ++ referencesText (retargeted old (moduleFor old new classes) refs)], 0,
        notedBy (moduleOf old new classes) p (calledNames old refs)⟩ := by
  obtain ⟨rfl, hl, hsound, hc, hi⟩ := h
  exact retargetLine_references ho new classes p hm hl (fun r hr => (hsound r hr).isDotted) hc hi

theorem unnamed_eq_zero (h : LineOf old front refs line) (hold : isModuleName old)
    (hm : old ∈ splitModules) : unnamed old line = 0 := by
  have ho := (retargetLine_spec (h.retargetLine_eq hold hm [] [] .initial)).1
  dsimp only at ho
  omega

theorem writes (h : LineOf "QtGui" front refs line) (hnew : new ∈ guiModules)
    (hc : Catalogue.classesOf? new = some classes) (hw : Writes "QtGui" new line line') :
    LineOf "QtGui" front (retargeted "QtGui" (moduleFor "QtGui" new classes) refs) line' := by
  obtain ⟨classes', p, q, hc', hl⟩ := hw
  obtain rfl : classes = classes' := Option.some.inj (hc.symm.trans hc')
  rw [h.retargetLine_eq isModuleName_gui gui_mem_splitModules] at hl
  have ht : front ++ referencesText (retargeted "QtGui" (moduleFor "QtGui" new classes) refs) = line' := by
    simpa using congrArg (Retargeted.lines) (Except.ok.inj hl)
  have hsound := sound_of_choice h.sound (moduleFor_mem new hnew classes)
  have hn : ∀ r ∈ refs, isModuleName r.module := fun r hr => (h.sound r hr).named
  refine ⟨ht.symm, h.lacks, hsound, ?_, ?_⟩
  · rw [← ht, isCode_retargeted hn fun r hr => (hsound r hr).named, ← h.text]
    exact h.code
  · rw [← ht, has_import_retargeted hn fun r hr => (hsound r hr).named, ← h.text]
    exact h.notImport

end LineOf

def guiPasses : List (Text × Text) :=
  [("QtGui", "QtCore"), ("QtGui", "QtWidgets"), ("QtGui", "QtPrintSupport")]

theorem mem_guiPasses {pass : Text × Text} (h : pass ∈ guiPasses) :
    pass.1 = "QtGui" ∧ pass.2 ∈ guiModules ∧ (Catalogue.classesOf? pass.2).isSome := by
  revert pass
  decide

theorem guiPasses_known : ∀ pass ∈ guiPasses, pass.1 ∈ splitModules ∧
    (Catalogue.classesOf? pass.2).isSome := fun pass hp => by
  obtain ⟨ho, -, hs⟩ := mem_guiPasses hp
  exact ⟨ho ▸ gui_mem_splitModules, hs⟩

theorem LineOf.writesAll {front line line' : Text} {refs : List Reference}
    (h : LineOf "QtGui" front refs line) (hwr : WritesAll guiPasses line line') :
    line' = front ++ referencesText (retargeted "QtGui" presentModule refs) := by
  obtain ⟨mid, hc, mid', hw, mid'', hp, rfl⟩ := hwr
  have hf := h.writes (by simp [guiModules]) rfl hc
  have hs := hf.writes (by simp [guiModules]) rfl hw
  have ht := hs.writes (by simp [guiModules]) rfl hp
  exact ht.text.trans (congrArg (front ++ referencesText ·) (retargeted_passes h.sound))

/-- A line that is no code, or an import, or a line of references. -/
def Settled (line : Text) : Prop :=
  line.isCode = true → line.has " import " = false → ∃ front refs, LineOf "QtGui" front refs line

theorem Settled.of_qualified {line : Text} (h : qualified "QtGui" line) : Settled line :=
  fun hc hi => ⟨_, _, LineOf.of_qualified isModuleName_gui hc hi h⟩

theorem Settled.unnamed_eq_zero {line : Text} (h : Settled line) : unnamed "QtGui" line = 0 := by
  by_cases ho : (!line.isCode || line.has " import ")
  · rw [unnamed, ho, Bool.true_or, Bool.true_or, if_pos rfl]
  · simp only [Bool.or_eq_true, Bool.not_eq_true', not_or, Bool.not_eq_false, Bool.not_eq_true] at ho
    obtain ⟨front, refs, hl⟩ := h ho.1 ho.2
    exact hl.unnamed_eq_zero isModuleName_gui gui_mem_splitModules

theorem Settled.writes {new line line' : Text} (h : Settled line) (hn : new ∈ guiModules)
    (hw : Writes "QtGui" new line line') : Settled line' := by
  have hk : (!line.isCode || line.has " import ") → line' = line := by
    intro ho
    obtain ⟨classes, p, q, -, hl⟩ := hw
    rw [retargetLine, if_pos (by rw [ho]; rfl)] at hl
    simpa using (congrArg Retargeted.lines (Except.ok.inj hl)).symm
  intro hco hi
  by_cases ho : (!line.isCode || line.has " import ")
  · rw [hk ho] at hco hi
    rw [hco, hi] at ho
    cases ho
  · simp only [Bool.or_eq_true, Bool.not_eq_true', not_or, Bool.not_eq_false, Bool.not_eq_true] at ho
    obtain ⟨front, refs, hl⟩ := h ho.1 ho.2
    obtain ⟨classes, p, q, hc, hl'⟩ := hw
    exact ⟨front, _, hl.writes hn hc ⟨classes, p, q, hc, hl'⟩⟩

theorem namesAll_of_settled : ∀ (passes : List (Text × Text)) (p : Progress) (lines : List Text),
    (∀ pass ∈ passes, pass ∈ guiPasses) → (∀ line ∈ lines, Settled line) → namesAll passes p lines
  | [], _, _, _, _ => rfl
  | (old, new) :: passes, p, lines, hp, hli => by
    have ho := (forall_mem_cons.mp hp).2
    obtain ⟨rfl, hnew, hs⟩ : old = "QtGui" ∧ new ∈ guiModules ∧
        (Catalogue.classesOf? new).isSome := mem_guiPasses (hp _ mem_cons_self)
    obtain ⟨classes, hc⟩ := Option.isSome_iff_exists.mp hs
    have hn := fun line hl => (hli line hl).unnamed_eq_zero
    obtain ⟨mids, q, hmi, hw⟩ :=
      exists_retargetGo gui_mem_splitModules hc lines p hn
    have hr : retarget "QtGui" new p lines = .ok (mids, q) := by
      rw [retarget, hc]
      exact hmi
    rw [namesAll, hr, Bool.and_eq_true, all_eq_true]
    refine ⟨fun line hl => by rw [hn line hl]; rfl, ?_⟩
    refine namesAll_of_settled passes q mids ho fun mid hm => ?_
    obtain ⟨line, hl, hm⟩ := exists_written hw hm
    exact (hli line hl).writes hnew hm

/-! ## The references that move -/

def identifier (s : Text) : Text := s.takeWhile Text.isWord

/-- **An identifier is closed**: nothing but white space stands between it and the next character that
ends a name. -/
def closed (s : Text) : Bool := (nameIn (s.dropWhile Text.isWord)).all Text.isBlank

theorem endsName_of_isWord {c : Char} (h : Text.isWord c) : endsName c = false := by
  by_contra he
  simp only [Bool.not_eq_false, endsName, Bool.or_eq_true, beq_iff_eq] at he
  obtain ((((rfl | rfl) | rfl) | rfl) | rfl) | rfl := he <;> exact absurd h (by decide)

theorem nameIn_eq_identifier (s : Text) : nameIn s = identifier s ++ nameIn (s.dropWhile Text.isWord) := by
  have hw : ∀ c ∈ s.takeWhile Text.isWord, (!endsName c) := fun c hc => by
    rw [endsName_of_isWord (mem_takeWhile_imp hc)]
    rfl
  conv_lhs => rw [← takeWhile_append_dropWhile (p := Text.isWord) (l := s)]
  exact takeWhile_append_of_pos hw

/-- **The name of a class that has moved is read exactly if it is closed**; otherwise the graphics
module stays. -/
theorem presentModule_nameIn {s : Text} {m : Text × List Text} (hm : m ∈ movedTo) (hmem : identifier s ∈ m.2) :
    presentModule (nameIn s).trim = if closed s then m.1 else "QtGui" := by
  have hl := movedTo_subset hm hmem
  have ht : (nameIn s).trim = identifier s ++ Text.trimRight (nameIn (s.dropWhile Text.isWord)) := by
    rw [nameIn_eq_identifier]
    exact trim_append (Catalogue.ne_nil_of_mem hl) (Catalogue.not_blank_of_mem hl) _
  split
  next hcl =>
    rw [ht, trimRight_eq_nil_iff.mpr hcl, append_nil]
    exact presentModule_of_mem hm hmem
  next ho =>
    refine presentModule_of_not_word (fun c hc => ?_) ?_
    · have hn : c ∈ nameIn s := ( trim_infix _).subset hc
      simpa using mem_takeWhile_imp hn
    · -- the first character behind the identifier is still there, and it belongs to no word
      obtain ⟨c, rest, hco⟩ := exists_cons_of_ne_nil
        fun hnil => ho (trimRight_eq_nil_iff.mp hnil)
      obtain ⟨tail, hta⟩ : c :: rest <+: s.dropWhile Text.isWord :=
        hco ▸ (trimRight_isPrefix _).trans ( takeWhile_prefix _)
      have hh := head?_dropWhile_not Text.isWord s
      rw [← hta, cons_append, head?_cons] at hh
      rw [ht, hco, all_append, all_cons, hh, Bool.false_and, Bool.and_false]

theorem retargeted_append (old : Text) (choose : Text → Text) (r : Reference) (rs : List Reference) :
    ∀ front : List Reference, ∃ front', front'.length = front.length ∧
      retargeted old choose (front ++ r :: rs) = front' ++ retargeted old choose (r :: rs)
  | [] => ⟨[], rfl, rfl⟩
  | first :: front => by
    obtain ⟨front', hl, heq⟩ := retargeted_append old choose r rs front
    rw [cons_append, retargeted, heq]
    exact ⟨_ :: front', by rw [length_cons, hl, length_cons], rfl⟩

/-- **The references of a line move where they are closed**: only modules change, and a reference to a
class that has moved gets the class's module if the class is closed, and keeps its own otherwise. -/
def MovesClosed (line line' : Text) : Prop :=
  ∃ refs, line' = line.firstPiece "QtGui" ++ referencesText refs ∧
    refs.map Reference.tail = (references "QtGui" line).map Reference.tail ∧
    ∀ front r rs, references "QtGui" line = front ++ r :: rs →
      ∃ front' module rs', refs = front' ++ ⟨module, r.tail⟩ :: rs' ∧ front'.length = front.length ∧
        ∀ m ∈ movedTo, identifier (r.behind rs) ∈ m.2 →
          module = if closed (r.behind rs) then m.1 else "QtGui"

theorem movesClosed_of_writesAll {line line' : Text} (hc : line.isCode)
    (hi : line.has " import " = false) (hq : qualified "QtGui" line)
    (hw : WritesAll guiPasses line line') : MovesClosed line line' := by
  have hli := LineOf.of_qualified isModuleName_gui hc hi hq
  refine ⟨_, hli.writesAll hw, retargeted_tails _ _ _, fun front r rs heq => ?_⟩
  obtain ⟨front', hl, hre⟩ := retargeted_append "QtGui" presentModule r rs front
  have hr : r.module = "QtGui" := by
    obtain ⟨tail, -, rfl⟩ := mem_map.mp (show r ∈ references "QtGui" line by rw [heq]; simp)
    rfl
  refine ⟨front', presentModule (nameIn (r.behind rs)).trim, retargeted "QtGui" presentModule rs,
    ?_, hl, fun m hm hmem => presentModule_nameIn hm hmem⟩
  rw [heq, hre, retargeted, if_pos hr]

/-- **A reference to a class that has moved gets the class's module exactly if the class is closed.** -/
theorem references_move_where_closed {p : Progress} {lines : List Text} (h : namesAll guiPasses p lines = true) :
    ∃ out q, retargetAll guiPasses p lines = .ok (out, q) ∧
      List.Forall₂ (fun line line' => line.isCode = true → line.has " import " = false →
        qualified "QtGui" line = true → MovesClosed line line') lines out := by
  obtain ⟨out, q, hout, hwrites⟩ := exists_retargetAll guiPasses p lines guiPasses_known h
  exact ⟨out, q, hout, hwrites.imp fun line line' hline hcode himport hqualified =>
    movesClosed_of_writesAll hcode himport hqualified hline⟩

/-- A closed class, one that is not closed, one at the end of its line, and an import. -/
def mixedReferences : List Text :=
  ["x = QtGui.QWidget(), QtGui.QFrame if y else QtGui.QDialog\n", "from PyQt4 import QtGui\n"]

theorem references_move_where_closed_mixedReferences : namesAll guiPasses .initial mixedReferences = true ∧
      ∃ out q, retargetAll guiPasses .initial mixedReferences = .ok (out, q) ∧
        List.Forall₂ (fun line line' => line.isCode = true → line.has " import " = false →
          qualified "QtGui" line = true → MovesClosed line line') mixedReferences out := by
  have hsettled : ∀ line ∈ mixedReferences, Settled line := by
    rw [mixedReferences, List.forall_mem_cons, List.forall_mem_singleton]
    exact ⟨.of_qualified (by decide), fun _ himport => absurd himport (by decide)⟩
  have hnames := namesAll_of_settled guiPasses .initial mixedReferences (fun _ h => h) hsettled
  exact ⟨hnames, references_move_where_closed hnames⟩

def keywordLine : Text := "x = QtGui.QWidget if y else None\n"

theorem retargetLine_keywordLine (new : Text) {classes : List Text}
    (hmo : classes ⊆ Catalogue.movedClasses) (p : Progress) :
    retargetLine "QtGui" new classes p keywordLine = .ok ⟨[keywordLine], 0, p.note "QtGui"⟩ := by
  have hl : LineOf "QtGui" "x = " [⟨"QtGui", ".QWidget if y else None\n"⟩] keywordLine := by
    refine ⟨by decide, has_eq_false_iff.mp (by decide), fun r hr => ?_, by decide, by decide⟩
    obtain rfl := mem_singleton.mp hr
    exact ⟨isModuleName_gui, fun _ => rfl, ⟨'Q', "Widget if y else None\n", by decide, by decide⟩,
      has_eq_false_iff.mp (by decide)⟩
  have hn : nameIn (Reference.behind ⟨"QtGui", ".QWidget if y else None\n"⟩ []) =
      "QWidget if y else None\n" := by decide
  have hs : moduleOf "QtGui" new classes p (Text.trim "QWidget if y else None\n") =
      (("QtGui" : Text), p.note "QtGui") := by
    refine moduleOf_of_not_word new p hmo (fun c hc => ?_) (by decide)
    have hno : (Text.trim "QWidget if y else None\n").any endsName = false := by decide
    simpa using any_eq_false.mp hno c hc
  have hm := (moduleOf_fst _ _ _ _ _).symm.trans (congrArg Prod.fst hs)
  rw [hl.retargetLine_eq isModuleName_gui gui_mem_splitModules, retargeted, if_pos rfl, hn,
    hm, calledNames, if_pos rfl, hn, notedBy, foldl_cons, hs]
  rw [hl.text]
  rfl

/-- **A class in front of an operator or a keyword keeps its old module**, although it has moved. -/
theorem reference_before_keyword_stays : ("QWidget" : Text) ∈ Catalogue.widgets ∧
      retargetAll guiPasses .initial [keywordLine] = .ok ([keywordLine], ⟨["QtGui"], false, false⟩) := by
  have hwidget : ("QWidget" : Text) ∈ Catalogue.widgets := by
    rw [Catalogue.widgets]
    apply List.mem_map_of_mem
    repeat first | exact List.mem_cons_self | apply List.mem_cons_of_mem
  have hretarget : ∀ new, ∀ m ∈ movedTo, m.1 = new → Catalogue.classesOf? new = some m.2 → ∀ p,
      retarget "QtGui" new p [keywordLine] = .ok ([keywordLine], p.note "QtGui") := by
    rintro new m hm rfl hclasses p
    rw [retarget, hclasses]
    exact bind_eq_ok.mpr ⟨_, retargetLine_keywordLine m.1 (movedTo_subset hm) p, bind_eq_ok.mpr ⟨_, rfl, rfl⟩⟩
  have hcore := hretarget "QtCore" ("QtCore", Catalogue.core) (by simp [movedTo]) rfl rfl
  have hwidgets := hretarget "QtWidgets" ("QtWidgets", Catalogue.widgets) (by simp [movedTo]) rfl rfl
  have hprint := hretarget "QtPrintSupport" ("QtPrintSupport", Catalogue.printSupport) (by simp [movedTo]) rfl rfl
  have hnoted : ((Progress.initial.note "QtGui").note "QtGui").note "QtGui" = ⟨["QtGui"], false, false⟩ := by decide
  refine ⟨hwidget, ?_⟩
  rw [← hnoted]
  exact bind_eq_ok.mpr ⟨_, hcore _, bind_eq_ok.mpr ⟨_, hwidgets _, bind_eq_ok.mpr ⟨_, hprint _, rfl⟩⟩⟩

end QtMigration
