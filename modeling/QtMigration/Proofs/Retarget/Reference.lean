import QtMigration.Retarget
import QtMigration.Proofs.Text.Split

/-!
# Proofs/Retarget/Reference — lines in which every module stands before a name

A line in which every occurrence of a module is followed by a dot and a name is a front and a list of
references: a module each, and the text behind it up to the next one.
-/

namespace QtMigration

open List

variable {c : Char} {refs rs : List Reference} {k : Nat} {r : Reference} {before front tail : Text}

/-! ## Names of modules -/

/-- **The shape of a module's name**: a `Q` at its beginning only, no blank and no character that ends
a name. -/
def isModuleName : Text → Bool
  | [] => false
  | c :: cs => c == 'Q' && cs.all fun d => d != 'Q' && !Text.isBlank d && !endsName d

section ModuleName

variable {m n : Text} (h : isModuleName m = true)

include h

theorem exists_of_isModuleName : ∃ rest, m = 'Q' :: rest ∧ 'Q' ∉ rest ∧
      ∀ c ∈ m, Text.isBlank c = false ∧ endsName c = false := by
  cases m with
  | nil => cases h
  | cons c cs =>
    simp only [isModuleName, Bool.and_eq_true, beq_iff_eq, all_eq_true, bne_iff_ne, Bool.not_eq_true'] at h
    obtain ⟨rfl, hcs⟩ := h
    refine ⟨cs, rfl, fun hQ => (hcs _ hQ).1.1 rfl, ?_⟩
    rw [forall_mem_cons]
    exact ⟨by decide, fun c hc => ⟨(hcs c hc).1.2, (hcs c hc).2⟩⟩

theorem dot_notMem_module : '.' ∉ m := fun hd => by
  obtain ⟨-, -, -, hc⟩ := exists_of_isModuleName h
  exact absurd (hc _ hd).2 (by decide)

theorem module_ne_nil : m ≠ [] := by
  obtain ⟨rest, rfl, -⟩ := exists_of_isModuleName h
  simp

theorem prefix_of_infix_module (hn : isModuleName n) (hin : n <:+: m) : n <+: m := by
  obtain ⟨rest, rfl, hr, -⟩ := exists_of_isModuleName h
  obtain ⟨tail, rfl, -⟩ := exists_of_isModuleName hn
  rcases infix_cons_iff.mp hin with hp | hin
  · exact hp
  · exact absurd (hin.subset mem_cons_self) hr

end ModuleName

/-! ## References -/

/-- **A reference**: a module, and the text behind it up to the next reference. -/
structure Reference where
  module : Text
  tail : Text
  deriving DecidableEq, Repr

def referencesText : List Reference → Text
  | [] => []
  | r :: rs => r.module ++ r.tail ++ referencesText rs

/-- The text behind the dot of the first of some references. -/
def Reference.behind (r : Reference) (rs : List Reference) : Text := r.tail.drop 1 ++ referencesText rs

def nameIn (s : Text) : Text := s.takeWhile fun c => !endsName c

/-- **A reference is sound for a module**: it names this module or one that does not begin with it,
and behind its dot a name begins; the module does not occur in between. -/
structure Reference.Sound (old : Text) (r : Reference) : Prop where
  named : isModuleName r.module = true
  same : old <+: r.module → r.module = old
  dotted : ∃ c rest, r.tail = '.' :: c :: rest ∧ endsName c = false
  lacks : ¬ old <:+: r.tail

/-- **A reference is dotted**: it is sound for a module, but for the text behind its dot, which may be that of the
next reference, or be missing. -/
structure Reference.Dotted (old : Text) (r : Reference) : Prop where
  named : isModuleName r.module = true
  same : old <+: r.module → r.module = old
  dot : ∃ rest, r.tail = '.' :: rest ∧ ∀ c ∈ rest.head?, endsName c = false
  lacks : ¬ old <:+: r.tail

theorem Reference.Sound.isDotted {old : Text} (h : r.Sound old) : r.Dotted old := by
  obtain ⟨c, rest, ht, hc⟩ := h.dotted
  exact ⟨h.named, h.same, ⟨c :: rest, ht, by simpa using hc⟩, h.lacks⟩

def calledNames (old : Text) : List Reference → List Text
  | [] => []
  | r :: rs =>
    if r.module = old then nameIn (r.behind rs) :: calledNames old rs else calledNames old rs

/-- **The references with the modules that `choose` puts in the place of `old`.** -/
def retargeted (old : Text) (choose : Text → Text) : List Reference → List Reference
  | [] => []
  | r :: rs =>
    (if r.module = old then { r with module := choose (nameIn (r.behind rs)).trim } else r) ::
      retargeted old choose rs

theorem infix_of_calledNames {old : Text} : ∀ {refs : List Reference}, calledNames old refs ≠ [] →
    old <:+: referencesText refs
  | [], h => absurd rfl h
  | r :: rs, h => by
    rw [referencesText, append_assoc]
    by_cases ht : r.module = old
    · rw [ht]
      exact (prefix_append _ _).isInfix
    · rw [calledNames, if_neg ht] at h
      rw [← append_assoc]
      exact (infix_of_calledNames h).trans (suffix_append _ _).isInfix

/-! ## The names of a line -/

section Names

variable {old : Text}

theorem namesGo_pass {mark rest : Text} : ∀ (passed : Text) (skip : Nat) (before : Text),
    (∀ k < passed.length, skip ≤ k → ¬ mark <:+ before ++ passed.take k) →
      namesGo mark.reverse skip before.reverse (passed ++ rest) =
        namesGo mark.reverse (skip - passed.length) (before ++ passed).reverse rest
  | [], _, _, _ => by simp
  | c :: passed, skip, before, h => by
    have ih := @namesGo_pass mark rest passed (skip - 1) (before ++ [c])
      fun k hk hs => by simpa using h (k + 1) (by simpa using hk) (by omega)
    have hb : c :: before.reverse = (before ++ [c]).reverse := by simp
    cases skip with
    | zero =>
      have hh : ¬ mark.reverse.isPrefixOf before.reverse := by
        rw [ isPrefixOf_iff_prefix, reverse_prefix]
        simpa using h 0 (by simp) (Nat.le_refl 0)
      rw [cons_append, namesGo, if_neg hh, hb, ih]
      simp
    | succ skip =>
      rw [Nat.add_sub_cancel] at ih
      rw [cons_append, namesGo, hb, ih]
      simp

theorem not_suffix_module {m : Text} (hd : '.' ∉ m)
    (hb : m.take k = [] → ¬ old ++ ['.'] <:+ before) : ¬ old ++ ['.'] <:+ before ++ m.take k := by
  intro h
  rcases eq_nil_or_concat (m.take k) with hn | ⟨front, d, hc⟩
  · rw [hn, append_nil] at h
    exact hb hn h
  · obtain ⟨u, hu⟩ := h
    rw [hc, concat_eq_append, ← append_assoc, ← append_assoc] at hu
    obtain rfl : '.' = d := by simpa using (append_inj' hu rfl).2
    exact hd (mem_of_mem_take (i := k) (by rw [hc]; simp))

theorem suffix_module_iff (hold : isModuleName old) {m : Text}
    (hm : isModuleName m) (hs : old <+: m → m = old) : old <:+ before ++ m ↔ m = old := by
  constructor
  · intro h
    rcases suffix_or_suffix_of_suffix h (suffix_append before m) with hin | hin
    · exact hs (prefix_of_infix_module hm hold hin.isInfix)
    · obtain ⟨q, rfl, hq, -⟩ := exists_of_isModuleName hold
      obtain ⟨q', rfl, -⟩ := exists_of_isModuleName hm
      rcases suffix_cons_iff.mp hin with heq | hin
      · exact heq
      · exact absurd (hin.subset mem_cons_self) hq
  · rintro rfl
    exact suffix_append _ _

theorem not_suffix_tail (hd : '.' ∉ old)
    (hl : ¬ old <:+: '.' :: c :: tail) : ¬ old ++ ['.'] <:+ before ++ '.' :: c :: tail := by
  intro h
  rcases suffix_or_suffix_of_suffix h (suffix_append _ _) with hin | ⟨front, ho⟩
  · exact hl ((prefix_append _ _).isInfix.trans hin.isInfix)
  · -- the module would have to contain the dot before `c`
    have hla : front ++ '.' :: (c :: tail).dropLast = old := by
      have h := congrArg List.dropLast ho
      rwa [dropLast_concat, dropLast_append_of_ne_nil (by simp), dropLast_cons_of_ne_nil (by simp)] at h
    exact hd (hla ▸ by simp)

theorem nameLength_le (hr : r.Dotted old) (rs : List Reference) (s : Text) :
    nameLength (s ++ referencesText (r :: rs)) ≤ s.length + r.module.length := by
  obtain ⟨rest, ht, -⟩ := hr.dot
  have ha : s ++ referencesText (r :: rs) = (s ++ r.module) ++ '.' :: (rest ++ referencesText rs) := by
    rw [referencesText, ht]
    simp
  rw [nameLength, ha, takeWhile_append]
  split
  · rw [takeWhile_cons_of_neg (by decide)]
    simp
  · exact Nat.le_trans ( takeWhile_prefix _).length_le (by simp)

theorem namesGo_name {mark s : Text} (hm : mark <:+ before) (hc : endsName c = false) :
    namesGo mark.reverse 0 before.reverse (c :: s) =
      nameIn (c :: s) :: namesGo mark.reverse (nameLength (c :: s)) before.reverse (c :: s) := by
  have hh : mark.reverse.isPrefixOf before.reverse := by
    rwa [ isPrefixOf_iff_prefix, reverse_prefix]
  have hl : nameLength (c :: s) = (nameLength (c :: s) - 1) + 1 := by
    rw [nameLength, takeWhile_cons_of_pos (by rw [hc]; rfl), length_cons, Nat.add_sub_cancel]
  rw [namesGo, if_pos hh, if_neg (by rw [hc]; decide), hl, namesGo, ← hl]
  exact congrArg (· :: _) (prefix_iff_eq_take.mp ( takeWhile_prefix _)).symm

theorem endsName_head_behind (hr : r.Dotted old)
    (hrs : ∀ r ∈ rs, r.Dotted old) : ∀ c ∈ (r.behind rs).head?, endsName c = false := by
  obtain ⟨rest, ht, hre⟩ := hr.dot
  intro c hc
  rw [Reference.behind, ht, drop_one, tail_cons] at hc
  cases rest with
  | cons d rest => exact hre c hc
  | nil =>
    cases rs with
    | nil => cases hc
    | cons r' rs =>
      obtain ⟨q, hq, -⟩ := exists_of_isModuleName (hrs r' mem_cons_self).named
      rw [referencesText, hq] at hc
      obtain rfl : 'Q' = c := by simpa using hc
      decide

theorem namesGo_references (hold : isModuleName old) : ∀ (refs : List Reference)
    (before : Text) (skip : Nat), (∀ r ∈ refs, r.Dotted old) → (skip = 0 → ¬ old ++ ['.'] <:+ before) →
      (∀ r rs, refs = r :: rs → skip ≤ r.module.length) →
      namesGo (old ++ ['.']).reverse skip before.reverse (referencesText refs) = calledNames old refs
  | [], before, skip, _, hbe, _ => by
    cases skip with
    | zero =>
      have hh : ¬ (old ++ ['.']).reverse.isPrefixOf before.reverse := by
        rw [ isPrefixOf_iff_prefix, reverse_prefix]
        exact hbe rfl
      rw [referencesText, namesGo, if_neg hh, calledNames]
    | succ skip => rfl
  | r :: rs, before, skip, hd, hbe, hs => by
    obtain ⟨hr, hrs⟩ := forall_mem_cons.mp hd
    obtain ⟨rest, hta, -⟩ := hr.dot
    have hte : referencesText (r :: rs) = (r.module ++ ['.']) ++ (rest ++ referencesText rs) := by
      rw [referencesText, hta]
      simp
    have hb : r.behind rs = rest ++ referencesText rs := by rw [Reference.behind, hta]; rfl
    -- over the module and its dot
    have hm : ∀ k < (r.module ++ ['.']).length, skip ≤ k →
        ¬ old ++ ['.'] <:+ before ++ (r.module ++ ['.']).take k := by
      intro k hk hle
      rw [take_append_of_le_length (by simpa using Nat.lt_succ_iff.mp (by simpa using hk))]
      refine not_suffix_module (dot_notMem_module hr.named) fun hnil => hbe ?_
      have := (take_eq_nil_iff.mp hnil).resolve_right (module_ne_nil hr.named)
      omega
    have hz : skip - (r.module ++ ['.']).length = 0 := by
      have := hs r rs rfl
      rw [length_append, length_singleton]
      omega
    -- the place behind the dot lies behind the module exactly if the reference is to it
    have hp : old ++ ['.'] <:+ before ++ (r.module ++ ['.']) ↔ r.module = old := by
      rw [← append_assoc, suffix_append_inj_of_length_eq rfl, and_iff_left rfl,
        suffix_module_iff hold hr.named hr.same]
    -- over the rest of the tail, of which a name may have taken a part, to the next reference
    have ht : ∀ k, rest.take k ≠ [] ∨ r.module ≠ old →
        ¬ old ++ ['.'] <:+ before ++ (r.module ++ ['.']) ++ rest.take k := by
      intro k hk
      cases htake : rest.take k with
      | nil =>
        rw [append_nil, hp]
        exact hk.resolve_left fun hne => hne htake
      | cons c cs =>
        have hin : '.' :: c :: cs <+: r.tail := by
          rw [hta, ← htake]
          exact prefix_cons_inj '.' |>.mpr ( take_prefix k rest)
        have hb : ¬ old ++ ['.'] <:+ (before ++ r.module) ++ '.' :: c :: cs :=
          not_suffix_tail (dot_notMem_module hold) fun hla => hr.lacks (hla.trans hin.isInfix)
        simpa using hb
    have hnext : ∀ skip, (skip = 0 → r.module ≠ old) →
        (∀ r' rs', rs = r' :: rs' → skip ≤ rest.length + r'.module.length) →
        namesGo (old ++ ['.']).reverse skip (before ++ (r.module ++ ['.'])).reverse
          (rest ++ referencesText rs) = calledNames old rs := by
      intro skip ho hs
      rw [namesGo_pass rest skip _ fun k hk hle => ht k ?_]
      · refine namesGo_references hold rs _ _ hrs (fun hend => ?_) fun r' rs' h => ?_
        · have hw := ht rest.length
          rw [take_length] at hw
          refine hw ?_
          by_cases hre : rest = []
          · exact .inr (ho (by simpa [hre] using hend))
          · exact .inl hre
        · have := hs r' rs' h
          omega
      · rcases Nat.eq_zero_or_pos k with rfl | hpos
        · exact .inr (ho (Nat.le_zero.mp hle))
        · refine .inl fun hnil => ?_
          have := (take_eq_nil_iff.mp hnil).resolve_left (by omega)
          rw [this] at hk
          exact absurd hk (Nat.not_lt_zero _)
    rw [hte, namesGo_pass _ skip _ hm, hz, calledNames, hb]
    by_cases hth : r.module = old
    · rw [if_pos hth]
      cases hn : rest ++ referencesText rs with
      | nil =>
        obtain rfl : rs = [] := by
          cases rs with
          | nil => rfl
          | cons r' rs =>
            have he := (append_eq_nil_iff.mp hn).2
            rw [referencesText, append_assoc, append_eq_nil_iff] at he
            exact absurd he.1 (module_ne_nil (hrs r' mem_cons_self).named)
        rw [namesGo, if_pos (by rw [ isPrefixOf_iff_prefix, reverse_prefix]; exact hp.mpr hth)]
        rfl
      | cons c s =>
        have hc : endsName c = false := endsName_head_behind hr hrs c (by rw [hb, hn]; rfl)
        have hl : nameLength (c :: s) ≠ 0 := by
          rw [nameLength, takeWhile_cons_of_pos (by rw [hc]; rfl)]
          exact Nat.succ_ne_zero _
        rw [namesGo_name (hp.mpr hth) hc, ← hn]
        refine congrArg (_ :: ·) (hnext _ (fun hz => ?_) fun r' rs' hco => ?_)
        · exact absurd (hn ▸ hz) hl
        · subst hco
          exact nameLength_le (hrs r' mem_cons_self) rs' rest
    · rw [if_neg hth]
      exact hnext 0 (fun _ => hth) fun _ _ _ => Nat.zero_le _

theorem namesBehind_references (hold : isModuleName old)
    (hf : ¬ old <:+: front) (hd : ∀ r ∈ refs, r.Dotted old) :
    namesBehind old (front ++ referencesText refs) = calledNames old refs := by
  have hm : ∀ k, ¬ old ++ ['.'] <:+ [] ++ front.take k := fun k h => hf <|
    (prefix_append _ _).isInfix.trans (h.isInfix.trans ( take_prefix k front).isInfix)
  rw [namesBehind, show (("." : String).toList : Text) = ['.'] from String.toList_ofList]
  refine (namesGo_pass front 0 [] fun k _ _ => hm k).trans ?_
  refine namesGo_references hold refs _ _ hd (fun _ => ?_) fun _ _ _ => by simp
  simpa using hm front.length

end Names

/-! ## The pieces of a line -/

def notedBy (choose : Progress → Text → Text × Progress) (p : Progress) (names : List Text) : Progress :=
  names.foldl (fun p name => (choose p name.trim).2) p

section Pieces

variable {old : Text} (hold : isModuleName old = true)

include hold

theorem not_prefix_before {m rest : Text} (hf : ¬ old <:+: front)
    (hm : isModuleName m) (hk : k < front.length) :
    ¬ old <+: (front ++ (m ++ rest)).drop k := by
  obtain ⟨q, rfl, hq, -⟩ := exists_of_isModuleName hold
  obtain ⟨q', rfl, -⟩ := exists_of_isModuleName hm
  intro h
  rw [drop_append_of_le_length (Nat.le_of_lt hk)] at h
  have hne : front.drop k ≠ [] := by simpa using hk
  have hin : 'Q' :: q <+: front.drop k := prefix_of_prefix_append (by simpa using hq) hne h
  exact hf (hin.isInfix.trans (drop_suffix k front).isInfix)

theorem not_infix_reference (hf : ¬ old <:+: front)
    (hr : r.Dotted old) (ho : r.module ≠ old) : ¬ old <:+: front ++ (r.module ++ r.tail) := by
  obtain ⟨q, hq, hmem, -⟩ := exists_of_isModuleName hold
  obtain ⟨q', hq', -⟩ := exists_of_isModuleName hr.named
  obtain ⟨rest, ht, -⟩ := hr.dot
  intro h
  have hi : old <:+: r.module ++ r.tail := by
    rw [hq', cons_append] at h ⊢
    exact (infix_or_infix_of_head (by rw [hq]; exact hmem) h).resolve_left hf
  have hm : old <:+: r.module := by
    rw [ht] at hi
    refine (infix_or_infix_of_head (fun hd => ?_) hi).resolve_right (ht ▸ hr.lacks)
    exact dot_notMem_module hold (mem_of_mem_drop hd)
  exact ho (hr.same (prefix_of_infix_module hr.named hold hm))

theorem splitGo_reference (hf : ¬ old <:+: front) (rest : Text) :
    Text.splitGo old 0 (front ++ (old ++ (tail ++ rest))) =
      (front, (Text.splitGo old 0 (tail ++ rest)).1 :: (Text.splitGo old 0 (tail ++ rest)).2) := by
  rw [Text.splitGo_pass front fun k hk => not_prefix_before hold hf hold hk,
    Text.splitGo_sep (module_ne_nil hold), append_nil]

variable {choose : Progress → Text → Text × Progress} {target : Text → Text}

/-- **Every occurrence of the module finds the name behind it**: the pieces are written with the
modules of these names between them, and no name is left. -/
theorem pieces_references (hta : ∀ p name, (choose p name).1 = target name) :
    ∀ (refs : List Reference) (front : Text) (r : Retargeting), front ≠ [] → ¬ old <:+: front →
      (∀ ref ∈ refs, ref.Dotted old) → r.names = calledNames old refs →
      r.pieces choose ((front ++ referencesText refs).splitOn old) =
        ⟨[], r.written ++ front ++ referencesText (retargeted old target refs), r.missed,
          notedBy choose r.progress r.names⟩
  | [], front, r, _, hf, _, hn => by
    have hs : Text.splitOn (front ++ referencesText []) old = [front] := by
      rw [referencesText, append_nil]
      exact Text.splitOn_of_not_has (Text.has_eq_false_iff.mpr hf)
    rw [hs, Retargeting.pieces, hn, calledNames, retargeted, referencesText, append_nil]
    cases r
    simp_all [notedBy, calledNames]
  | ref :: refs, front, r, hne, hf, hd, hn => by
    obtain ⟨href, hr⟩ := forall_mem_cons.mp hd
    obtain ⟨rest, htail, -⟩ := href.dot
    have hte : front ++ referencesText (ref :: refs) =
        front ++ (ref.module ++ (ref.tail ++ referencesText refs)) := by
      rw [referencesText, append_assoc]
    by_cases ht : ref.module = old
    · rw [calledNames, if_pos ht] at hn
      have hs : Text.splitOn (front ++ referencesText (ref :: refs)) old =
          front :: Text.splitOn (ref.tail ++ referencesText refs) old := by
        rw [hte, ht, Text.splitOn, splitGo_reference hold hf]
        rfl
      have ih := pieces_references hta refs ref.tail
        (({ r with written := r.written ++ front }).next choose) (by rw [htail]; simp) href.lacks
        hr (by rw [Retargeting.next, hn])
      rw [hs, Text.splitOn, Retargeting.pieces, if_neg (by simpa using hne)]
      · refine ih.trans ?_
        rw [Retargeting.next, hn, retargeted, if_pos ht, referencesText]
        simp [hta, notedBy]
      · simp
    · rw [calledNames, if_neg ht] at hn
      have ih := pieces_references hta refs (front ++ (ref.module ++ ref.tail)) r (by simp [hne])
        (not_infix_reference hold hf href ht) hr hn
      rw [hte, ← append_assoc ref.module, ← append_assoc, ih, retargeted, if_neg ht, referencesText]
      simp

theorem not_startsWith_of_front (hne : front ≠ []) (hf : ¬ old <:+: front)
    (hd : ∀ ref ∈ refs, ref.Dotted old) : ¬ Text.startsWith (front ++ referencesText refs) old := by
  rw [Text.startsWith, isPrefixOf_iff_prefix]
  intro h
  cases refs with
  | nil =>
    rw [referencesText, append_nil] at h
    exact hf h.isInfix
  | cons ref refs =>
    rw [referencesText, append_assoc] at h
    exact not_prefix_before hold hf (hd ref mem_cons_self).named (length_pos_iff.mpr hne) h

end Pieces

/-! ## One line -/

def moduleFor (old new : Text) (classes : List Text) (name : Text) : Text :=
  if name == "QSound" then "QtMultimedia"
  else if name == "QStringListModel" then "QtCore"
  else if classes.contains name then new
  else old

theorem moduleOf_fst (old new : Text) (classes : List Text) (p : Progress) (name : Text) :
    (moduleOf old new classes p name).1 = moduleFor old new classes name := by
  rw [moduleOf, moduleFor]
  (repeat' split) <;> rfl

/-- What retargeting a line starts with: at the beginning of the line the module asks for its name
before the pieces do. -/
def retargetingStart (choose : Progress → Text → Text × Progress) (old line : Text)
    (names : List Text) (p : Progress) : Retargeting :=
  if line.startsWith old then (⟨names, [], 0, p⟩ : Retargeting).next choose else ⟨names, [], 0, p⟩

/-- The pieces of the line give it with its references retargeted. -/
def Follows (old new : Text) (classes : List Text) (p : Progress) (front : Text) (refs : List Reference) : Prop :=
  (retargetingStart (moduleOf old new classes) old (front ++ referencesText refs)
      (calledNames old refs) p).pieces (moduleOf old new classes) ((front ++ referencesText refs).splitOn old) =
    ⟨[], front ++ referencesText (retargeted old (moduleFor old new classes) refs), 0,
      notedBy (moduleOf old new classes) p (calledNames old refs)⟩

section Line

variable {old : Text} (hold : isModuleName old = true) (new : Text) (classes : List Text) (p : Progress)

include hold

theorem pieces_of_front (hne : front ≠ []) (hf : ¬ old <:+: front) (hd : ∀ r ∈ refs, r.Dotted old) :
    Follows old new classes p front refs := by
  rw [Follows, retargetingStart, if_neg (not_startsWith_of_front hold hne hf hd),
    pieces_references hold (moduleOf_fst old new classes) refs front _ hne hf hd rfl]
  rfl

theorem pieces_of_reference (hd : ∀ ref ∈ r :: rs, ref.Dotted old) (ht : r.module = old) :
    Follows old new classes p [] (r :: rs) := by
  obtain ⟨hr, hrs⟩ := forall_mem_cons.mp hd
  obtain ⟨rest, hta, -⟩ := hr.dot
  have hte : referencesText (r :: rs) = [] ++ (old ++ (r.tail ++ referencesText rs)) := by
    rw [referencesText, ht, append_assoc, nil_append]
  have hst : Text.startsWith (referencesText (r :: rs)) old := by
    rw [hte, Text.startsWith, isPrefixOf_iff_prefix, nil_append]
    exact prefix_append _ _
  have hs : Text.splitOn (referencesText (r :: rs)) old =
      [] :: Text.splitOn (r.tail ++ referencesText rs) old := by
    rw [hte, Text.splitOn, splitGo_reference hold (by simpa using module_ne_nil hold)]
    rfl
  have hp := pieces_references hold (moduleOf_fst old new classes) rs r.tail
    ((⟨calledNames old (r :: rs), [], 0, p⟩ : Retargeting).next (moduleOf old new classes))
    (by rw [hta]; simp) hr.lacks hrs (by rw [calledNames, if_pos ht, Retargeting.next])
  rw [Follows, nil_append, nil_append, retargetingStart, if_pos hst, hs, Text.splitOn,
    Retargeting.pieces, if_pos isEmpty_nil]
  · refine hp.trans ?_
    rw [retargeted, if_pos ht, referencesText, calledNames, if_pos ht]
    simp [Retargeting.next, moduleOf_fst, notedBy]
  · simp

theorem pieces_line (hf : ¬ old <:+: front) (hd : ∀ r ∈ refs, r.Dotted old) :
    Follows old new classes p front refs := by
  by_cases hne : front = []
  · subst hne
    cases refs with
    | nil =>
      have hs : ¬ Text.startsWith ([] ++ referencesText []) old := by
        rw [Text.startsWith, isPrefixOf_iff_prefix]
        simpa [referencesText] using module_ne_nil hold
      rw [Follows, retargetingStart, if_neg hs]
      rfl
    | cons r rs =>
      by_cases ht : r.module = old
      · exact pieces_of_reference hold new classes p hd ht
      · -- a first reference to another module belongs to the front
        obtain ⟨hr, hrs⟩ := forall_mem_cons.mp hd
        have hl : ¬ old <:+: r.module ++ r.tail := by
          simpa using not_infix_reference hold hf hr ht
        have hso : r.module ++ r.tail ≠ [] := by simpa using fun h => absurd h (module_ne_nil hr.named)
        have ho := pieces_of_front hold new classes p hso hl hrs
        rw [Follows, retargeted, if_neg ht, calledNames, if_neg ht]
        simpa [Follows, referencesText] using ho
  · exact pieces_of_front hold new classes p hne hf hd

theorem retargetNames_references (hf : ¬ old <:+: front) (hd : ∀ r ∈ refs, r.Dotted old) :
    retargetNames old new classes p (front ++ referencesText refs) (calledNames old refs) =
      .ok ⟨[front ++ referencesText (retargeted old (moduleFor old new classes) refs)], 0,
        notedBy (moduleOf old new classes) p (calledNames old refs)⟩ := by
  have hp := pieces_line hold new classes p hf hd
  rw [Follows, retargetingStart] at hp
  rw [retargetNames]
  dsimp only
  rw [hp]
  rfl

theorem other_references : ∀ {refs : List Reference} {front : Text}, ¬ old <:+: front →
    (∀ r ∈ refs, r.Dotted old) → calledNames old refs = [] →
      ¬ old <:+: front ++ referencesText refs ∧ ∀ choose, retargeted old choose refs = refs
  | [], front, hf, _, _ => ⟨by rwa [referencesText, append_nil], fun _ => rfl⟩
  | r :: rs, front, hf, hd, hn => by
    obtain ⟨hr, hrs⟩ := forall_mem_cons.mp hd
    have ho : r.module ≠ old := fun ht => by
      rw [calledNames, if_pos ht] at hn
      cases hn
    rw [calledNames, if_neg ho] at hn
    obtain ⟨hl, hk⟩ :=
      other_references (not_infix_reference hold hf hr ho) hrs hn
    refine ⟨by simpa [referencesText] using hl, fun choose => ?_⟩
    rw [retargeted, if_neg ho, hk]

theorem retargetLine_references (hm : old ∈ splitModules) (hf : ¬ old <:+: front)
    (hd : ∀ r ∈ refs, r.Dotted old) (hc : Text.isCode (front ++ referencesText refs))
    (hi : Text.has (front ++ referencesText refs) " import " = false) :
    retargetLine old new classes p (front ++ referencesText refs) =
      .ok ⟨[front ++ referencesText (retargeted old (moduleFor old new classes) refs)], 0,
        notedBy (moduleOf old new classes) p (calledNames old refs)⟩ := by
  by_cases hn : calledNames old refs = []
  · obtain ⟨hl, hk⟩ := other_references hold hf hd hn
    rw [retargetLine, if_pos (by simp [Text.has_eq_false_iff.mpr hl]), hk, hn]
    rfl
  · have hb := namesBehind_references hold hf hd
    have hh : Text.has (front ++ referencesText refs) old :=
      Text.has_iff_infix.mpr ((infix_of_calledNames hn).trans (suffix_append _ _).isInfix)
    rw [retargetLine, if_neg (by rw [hc, hi, hh]; decide), if_neg (by simpa using hm), hb]
    split
    next h => exact absurd h hn
    next => exact retargetNames_references hold new classes p hf hd

end Line

end QtMigration
