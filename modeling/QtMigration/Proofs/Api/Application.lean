import QtMigration.Api.Application
import QtMigration.Proofs.Catalogue
import QtMigration.Proofs.Text.Border

/-!
# Proofs/Api/Application — the uses of the global name

A line is cut at the global name. `use?` says of one place whether the name is used there and which method of
the class is called on it, from the text before and the text behind; `settled` is the line with every use
replaced.
-/

namespace QtMigration

open List Text

variable {c : Char} {after b behind head m name p rest s t : Text}

/-! ## Uses -/

abbrev globalWord : Text := "qApp"

/-- What makes room for a use: the name of a module and a dot, or a character that may stand before the
name. -/
def isOpener (s : Text) : Bool := s == "Qt." || s == "QtWidgets." || (s.length == 1 && s.all opensName)

def endsOpen : Text → Bool
  | [] => false
  | c :: cs => isOpener (c :: cs) || endsOpen cs

def opensUse (front : Text) : Bool := front.isEmpty || endsOpen front

def closesUse (behind : Text) : Bool := !behind.head?.any isAsciiWord

/-- The method of the class that is called, with its dot; nothing if it is none of them. -/
def calledMethod (behind : Text) : Text :=
  let word := (behind.drop 1).takeWhile isAsciiWord
  if behind.head? = some '.' ∧ word ∈ Catalogue.applicationMethods then '.' :: word else []

/-- The method that is called in the use between `front` and `behind`, if this is a use. -/
def use? (front behind : Text) : Option Text :=
  if opensUse front && closesUse behind then some (calledMethod behind) else none

/-- What stands for the global name where `method` is called. -/
def instead (method : Text) : Text := if method.isEmpty then "QApplication.instance()" else "QApplication"

def rejoined (pieces : List Text) : Text := (pieces.map (globalWord ++ ·)).flatten

/-- The pieces behind `front` with a name before each; `f` gives the name for a use. -/
def namedBy (f : Option Text → Text) : Text → List Text → Text
  | _, [] => []
  | front, piece :: pieces =>
    f (use? front (piece ++ rejoined pieces)) ++ (piece ++ namedBy f (front ++ (globalWord ++ piece)) pieces)

/-- **The line with every use of the global name replaced** and all else as it is. -/
def settled (line : Text) : Text :=
  (line.splitOn globalWord).headD [] ++
    namedBy (·.elim globalWord instead) ((line.splitOn globalWord).headD []) (line.splitOn globalWord).tail

def HasUse (line : Text) : Prop :=
  ∃ front behind, line = front ++ (globalWord ++ behind) ∧ (use? front behind).isSome = true

/-- **Two uses that are due to the same rule have one character between them.** -/
def Crowded (line : Text) : Prop :=
  ∃ front method c behind, line = front ++ (globalWord ++ (method ++ c :: (globalWord ++ behind))) ∧
    use? front (method ++ c :: (globalWord ++ behind)) = some method ∧
      use? (front ++ (globalWord ++ (method ++ [c]))) behind = some method

/-! ## Before a use -/

theorem endsOpen_append_cons (hc : c ∉ ("QtWidgets" : Text)) (ht : t ≠ []) (x : Text) :
    endsOpen (x ++ c :: t) = endsOpen t := by
  have ho : ∀ x : Text, isOpener (x ++ c :: t) = false := fun x => by
    obtain ⟨t, d, rfl⟩ := (eq_nil_or_concat t).resolve_left ht
    have hmo : ∀ m : Text, m.dropLast ⊆ ("QtWidgets" : Text) → (x ++ c :: t.concat d == m) = false := by
      rintro m hm
      refine beq_false_of_ne fun heq => hc (hm ?_)
      rw [← heq, concat_eq_append, ← cons_append, ← append_assoc, dropLast_concat]
      simp
    have hl : ((x ++ c :: t.concat d).length == 1) = false := by
      simp
      omega
    rw [isOpener, hmo _ (by decide), hmo _ (by decide), hl]
    rfl
  induction x with
  | nil => rw [nil_append, endsOpen, ← nil_append (c :: t), ho, Bool.false_or]
  | cons a x ih => rw [cons_append, endsOpen, ← cons_append, ho, Bool.false_or, ih]

theorem endsOpen_globalWord (x : Text) : endsOpen (x ++ globalWord) = false := by
  have ho : ∀ {x : Text}, isOpener (x ++ ['p']) = false := fun {x} => by
    have hmo : ∀ m : Text, m.getLast? ≠ some 'p' → (x ++ ['p'] == m) = false := fun m hm =>
      beq_false_of_ne fun heq => hm (by rw [← heq, getLast?_concat])
    rw [isOpener, hmo _ (by decide), hmo _ (by decide)]
    cases x with
    | nil => decide
    | cons a x => simp
  have hlast : ∀ x : Text, endsOpen (x ++ ['p']) = false := fun x => by
    induction x with
    | nil => decide
    | cons a x ih => rw [cons_append, endsOpen, ← cons_append, ho, ih, Bool.false_or]
  exact (congrArg endsOpen (append_assoc x "qAp" ['p']).symm).trans (hlast _)

/-! ## The names and the methods -/

def globalNames : List Text := [globalWord, "QApplication", "QApplication.instance()"]

def ruleKeys : List Text := Catalogue.applicationMethods.map ('.' :: ·) ++ [[]]

def NameOrEnd (y : Text) : Prop := y = [] ∨ ∃ c cs, c ∈ ['q', 'Q'] ∧ y = c :: 'A' :: cs

/-- One word that neither has a beginning of a name in it nor ends in one. -/
def plainMethod (m : Text) : Bool :=
  m.all isAsciiWord && !(has (m ++ ['A']) ['q', 'A']) && !(has (m ++ ['A']) ['Q', 'A'])

theorem exists_spelled_methods : ∃ names, Catalogue.applicationMethods = names ∧ names.all plainMethod := by
  apply Exists.intro
  apply And.intro
  · unfold Catalogue.applicationMethods
    repeat apply Catalogue.map_toList_cons
    exact map_nil
  · decide +kernel

theorem plainMethod_of_mem (h : m ∈ Catalogue.applicationMethods) : plainMethod m := by
  obtain ⟨names, rfl, ha⟩ := exists_spelled_methods
  exact all_eq_true.mp ha m h

theorem nameOrEnd_of_mem (h : name ∈ globalNames) (s : Text) : NameOrEnd (name ++ s) := by
  have ha : ∀ name ∈ globalNames, name.headD ' ' ∈ ['q', 'Q'] ∧ name = name.headD ' ' :: 'A' :: name.drop 2 := by
    decide
  obtain ⟨hh, hn⟩ := ha name h
  exact .inr ⟨_, name.drop 2 ++ s, hh, by rw [← cons_append, ← cons_append, ← hn]⟩

theorem closesUse_nil (hr : NameOrEnd rest) (h : closesUse rest) : rest = [] :=
  hr.resolve_right fun ⟨c, _, hc, heq⟩ => by
    rw [heq, closesUse, head?_cons, Option.any_some] at h
    rw [all_eq_true.mp (show ['q', 'Q'].all isAsciiWord by decide) c hc] at h
    cases h

theorem closesUse_append {y y' : Text} (hy : NameOrEnd y) (h : y = [] → y' = []) (hp : closesUse (p ++ y)) :
    closesUse (p ++ y') := by
  cases p with
  | cons c p => exact hp
  | nil =>
    rw [h (closesUse_nil hy hp)]
    rfl

theorem wholeWord?_eq_some_iff {word : Text} :
    wholeWord? word s = some after ↔ s = word ++ after ∧ closesUse after := by
  rw [wholeWord?]
  split
  next h =>
    obtain ⟨t, rfl⟩ := isPrefixOf_iff_prefix.mp h
    rw [drop_left, append_cancel_left_eq]
    cases t with
    | nil => cases after <;> simp [closesUse]
    | cons c t =>
      cases hc : isAsciiWord c with
      | false =>
        simp only [hc, Bool.false_eq_true, if_false, Option.some.injEq]
        exact ⟨fun heq => ⟨heq, by rw [← heq, closesUse, head?_cons, Option.any_some, hc]; rfl⟩, And.left⟩
      | true =>
        simp only [hc, if_true, reduceCtorEq, false_iff, not_and]
        rintro rfl
        rw [closesUse, head?_cons, Option.any_some, hc]
        decide
  next h => exact iff_of_false nofun fun hs => h ( isPrefixOf_iff_prefix.mpr ⟨after, hs.1.symm⟩)

theorem exists_eq_append_of_key {key piece y : Text} (hkey : key ∈ ruleKeys) (hy : NameOrEnd y)
    (h : piece ++ y = key ++ after) : ∃ p, piece = key ++ p ∧ after = p ++ y := by
  rcases append_eq_append_iff.mp h with ⟨r, rfl, rfl⟩ | ⟨p, rfl, rfl⟩
  · rcases hy with hn | ⟨c, cs, hc, hco⟩
    · obtain ⟨rfl, rfl⟩ := append_eq_nil_iff.mp hn
      exact ⟨[], by simp⟩
    · cases r with
      | nil => exact ⟨[], by simp⟩
      | cons d r =>
        obtain ⟨rfl, hr⟩ := cons.inj hco
        have hb : [d, 'A'] <+: d :: r ++ ['A'] := by
          cases r with
          | nil => exact ⟨[], rfl⟩
          | cons e r =>
            obtain ⟨rfl, -⟩ := cons.inj hr
            exact ⟨r ++ ['A'], rfl⟩
        rcases mem_append.mp hkey with hmem | hmem
        · obtain ⟨m, hm, heq⟩ := mem_map.mp hmem
          cases piece with
          | nil => exact absurd hc (by rw [← (cons.inj heq).1]; decide)
          | cons e piece =>
            have hp := plainMethod_of_mem hm
            rw [(cons.inj heq).2] at hp
            have hin : [d, 'A'] <:+: piece ++ d :: r ++ ['A'] := by
              rw [append_assoc]
              exact hb.isInfix.trans (suffix_append _ _).isInfix
            simp only [plainMethod, Bool.and_eq_true, Bool.not_eq_true', has_eq_false_iff] at hp
            rcases mem_cons.mp hc with rfl | hc
            · exact absurd hin hp.1.2
            · obtain rfl := mem_singleton.mp hc
              exact absurd hin hp.2
        · simp at hmem
  · exact ⟨p, rfl, rfl⟩

theorem calledMethod_eq_iff (hm : m ∈ Catalogue.applicationMethods) :
    calledMethod behind = '.' :: m ↔ ∃ after, behind = '.' :: m ++ after ∧ closesUse after := by
  have hword : ∀ c ∈ m, isAsciiWord c := by
    have hp := plainMethod_of_mem hm
    rw [plainMethod, Bool.and_assoc, Bool.and_eq_true, all_eq_true] at hp
    exact hp.1
  constructor
  · intro h
    rw [calledMethod] at h
    split at h
    next hd =>
      obtain ⟨s, rfl⟩ := head?_eq_some_iff.mp hd.1
      obtain ⟨-, rfl⟩ := cons.inj h
      refine ⟨s.dropWhile isAsciiWord, by rw [cons_append, drop_one, tail_cons, takeWhile_append_dropWhile], ?_⟩
      have hh := head?_dropWhile_not isAsciiWord s
      rw [closesUse]
      cases hr : (s.dropWhile isAsciiWord).head? with
      | none => rfl
      | some c => simpa [hr] using hh
    next => cases h
  · rintro ⟨after, rfl, ha⟩
    have ht : (m ++ after).takeWhile isAsciiWord = m := by
      rw [takeWhile_append_of_pos hword]
      cases after with
      | nil => simp
      | cons c after =>
        rw [closesUse, head?_cons, Option.any_some, Bool.not_eq_true'] at ha
        rw [takeWhile_cons_of_neg (by simp [ha]), append_nil]
    rw [calledMethod, cons_append, drop_one, tail_cons, ht, if_pos ⟨head?_cons, hm⟩]

theorem endsOpen_name (hn : name ∈ globalNames) {piece : Text} (hp : piece = [] → name = globalWord)
    (x : Text) : endsOpen (x ++ (name ++ piece)) = endsOpen piece ∧ endsOpen (name.drop 1 ++ piece) = endsOpen piece := by
  cases piece with
  | nil =>
    rw [hp rfl, append_nil, append_nil]
    exact ⟨endsOpen_globalWord x, by decide⟩
  | cons d piece =>
    have ha : globalNames.all fun name => [')', 'n', 'p'].any fun c =>
        name.drop 1 == (name.drop 1).dropLast ++ [c] := by decide
    obtain ⟨c, hc, hd⟩ := any_eq_true.mp (all_eq_true.mp ha name hn)
    rw [beq_iff_eq] at hd
    have hs : ∀ x, endsOpen (x ++ c :: (d :: piece)) = endsOpen (d :: piece) :=
      endsOpen_append_cons (of_decide_eq_true (all_eq_true.mp (show [')', 'n', 'p'].all
        (· ∉ ("QtWidgets" : Text)) by decide) c hc)) (by simp)
    have hsp : name = name.take 1 ++ ((name.drop 1).dropLast ++ [c]) := by rw [← hd, take_append_drop]
    constructor
    · rw [hsp]
      simpa using hs (x ++ (name.take 1 ++ (name.drop 1).dropLast))
    · rw [hd]
      simpa using hs (name.drop 1).dropLast

/-! ## One rule -/

/-- A name may stand behind the piece `p`, with which the line begins if `first` says so. -/
def opensAt (first : Bool) (p : Text) : Bool := (first && p.isEmpty) || endsOpen p

def behind? (word head s : Text) : Option (Text × Text) :=
  if head.isPrefixOf s then (wholeWord? word (s.drop head.length)).map (head, ·) else none

theorem globalName?_cons (word : Text) (first : Bool) (c : Char) (cs : Text) : globalName? word first (c :: cs) =
    ((if first then (wholeWord? word (c :: cs)).map (([] : Text), ·) else none) <|>
      (if opensName c then (wholeWord? word cs).map ([c], ·) else none) <|>
      behind? word "Qt." (c :: cs) <|> behind? word "QtWidgets." (c :: cs)) :=
  rfl

section Walk

variable {word new y : Text} (hword : globalWord <+: word) (hy : NameOrEnd y)

include hy in
theorem prefix_of_prefix_name {needle : Text} (hq : 'q' ∉ needle.drop 1) (hQ : 'Q' ∉ needle.drop 1) (hp : p ≠ [])
    (h : needle <+: p ++ y) : needle <+: p := by
  rcases hy with rfl | ⟨c, cs, hc, rfl⟩
  · rwa [append_nil] at h
  · refine prefix_of_prefix_append ?_ hp h
    rcases mem_cons.mp hc with rfl | hc
    · exact hq
    · rwa [mem_singleton.mp hc]

include hword hy

theorem wholeWord?_piece (hp : ¬ globalWord <:+: p) (hne : p ≠ []) : wholeWord? word (p ++ y) = none := by
  refine Option.eq_none_iff_forall_not_mem.mpr fun after h => hp ?_
  obtain ⟨hs, -⟩ := wholeWord?_eq_some_iff.mp h
  exact (prefix_of_prefix_name hy (by decide) (by decide) hne (hs ▸ hword.trans (prefix_append _ _))).isInfix

theorem behind?_piece (hq : 'q' ∉ head.drop 1) (hQ : 'Q' ∉ head.drop 1) (hp : ¬ globalWord <:+: p)
    (hne : p ≠ []) : behind? word head (p ++ y) = if p == head then (wholeWord? word y).map (p, ·) else none := by
  rw [behind?]
  by_cases h : head <+: p
  · obtain ⟨p, rfl⟩ := h
    rw [append_assoc, if_pos ( isPrefixOf_iff_prefix.mpr (prefix_append _ _)), drop_left]
    cases p with
    | nil => simp
    | cons d p =>
      rw [wholeWord?_piece hword hy (fun hin => hp (hin.trans (suffix_append _ _).isInfix)) (by simp)]
      simp
  · rw [if_neg fun hpre => h (prefix_of_prefix_name hy hq hQ hne ( isPrefixOf_iff_prefix.mp hpre)),
      if_neg fun heq => h ((show p = head from eq_of_beq heq) ▸ prefix_rfl)]

theorem globalName?_piece (first : Bool) (hp : ¬ globalWord <:+: p) : globalName? word first (p ++ y) =
    if (first && p.isEmpty) || isOpener p then (wholeWord? word y).map (p, ·) else none := by
  cases p with
  | nil =>
    rcases hy with rfl | ⟨c, cs, hc, rfl⟩
    · have hn : wholeWord? word [] = none := by
        obtain ⟨t, rfl⟩ := hword
        rfl
      cases first <;> simp [globalName?, hn]
    · have ho : opensName c = false := of_decide_eq_true
        (all_eq_true.mp (show ['q', 'Q'].all (opensName · = false) by decide) c hc)
      have hm : ∀ d e : Char, ∀ m, e ≠ 'A' → behind? word (d :: e :: m) (c :: 'A' :: cs) = none := fun d e m he =>
        if_neg fun h => he (cons_prefix_cons.mp (cons_prefix_cons.mp ( isPrefixOf_iff_prefix.mp h)).2).1
      rw [nil_append, globalName?_cons, ho,
        show behind? word "Qt." _ = none from hm 'Q' 't' "." (by decide),
        show behind? word "QtWidgets." _ = none from hm 'Q' 't' "Widgets." (by decide)]
      cases first <;> cases wholeWord? word (c :: 'A' :: cs) <;> rfl
  | cons a p =>
    have hs : (if opensName a then (wholeWord? word (p ++ y)).map ([a], ·) else none) =
        if (a :: p).length == 1 && (a :: p).all opensName then (wholeWord? word y).map (a :: p, ·) else none := by
      cases p with
      | nil => simp
      | cons d p =>
        rw [wholeWord?_piece hword hy (fun hin => hp (hin.trans (suffix_cons a _).isInfix)) (by simp)]
        simp
    have hd := wholeWord?_piece hword hy hp (cons_ne_nil a p)
    have hm : ∀ head : Text, 'q' ∉ head.drop 1 → 'Q' ∉ head.drop 1 → behind? word head (a :: (p ++ y)) = _ :=
      fun head hq hQ => behind?_piece hword hy hq hQ hp (cons_ne_nil a p)
    rw [cons_append] at hd ⊢
    rw [globalName?_cons, hd, hs, hm _ (by decide) (by decide), hm _ (by decide) (by decide),
      isOpener, isEmpty_cons, Bool.and_false, Bool.false_or, Option.map_none, ite_self]
    cases (a :: p == ("Qt." : Text)) <;> cases (a :: p == ("QtWidgets." : Text)) <;>
      cases ((a :: p).length == 1 && (a :: p).all opensName) <;> cases wholeWord? word y <;> rfl

omit hword hy in
theorem replaceGlobalGo_drop : ∀ (n : Nat) (s : Text),
    replaceGlobalGo word new n false s = replaceGlobalGo word new 0 false (s.drop n)
  | 0, s => rfl
  | n + 1, [] => by rw [drop_nil, replaceGlobalGo, replaceGlobalGo]
  | n + 1, c :: s => by rw [replaceGlobalGo, replaceGlobalGo_drop n s, drop_succ_cons]

theorem replaceGlobalGo_step (first : Bool) (hp : ¬ globalWord <:+: p) : replaceGlobalGo word new 0 first (p ++ y) =
      (if (first && p.isEmpty) || isOpener p then wholeWord? word y else none).elim
        ((p ++ y).take 1 ++ replaceGlobalGo word new 0 false ((p ++ y).drop 1))
        fun after => p ++ (new ++ (after.take 1 ++ replaceGlobalGo word new 0 false (after.drop 1))) := by
  have hne : word ≠ [] := fun h => by simp [h] at hword
  cases hs : p ++ y with
  | nil =>
    obtain ⟨rfl, rfl⟩ := append_eq_nil_iff.mp hs
    have hno : wholeWord? word [] = none :=
      Option.eq_none_iff_forall_not_mem.mpr fun after h => hne (append_eq_nil_iff.mp (wholeWord?_eq_some_iff.mp h).1.symm).1
    rw [hno, ite_self]
    rfl
  | cons c cs =>
    have hn := globalName?_piece hword hy first hp
    rw [hs] at hn
    rw [replaceGlobalGo, hn]
    cases hc : (first && p.isEmpty) || isOpener p with
    | false => rfl
    | true =>
      cases ha : wholeWord? word y with
      | none => rfl
      | some after =>
        obtain ⟨rfl, -⟩ := wholeWord?_eq_some_iff.mp ha
        have hr : cs.drop (p.length + word.length + min 1 after.length - 1) = after.drop 1 := by
          have hl := length_pos_iff.mpr hne
          calc cs.drop (p.length + word.length + min 1 after.length - 1)
              = (c :: cs).drop (p.length + (word.length + min 1 after.length)) := by
                rw [show p.length + (word.length + min 1 after.length) =
                  (p.length + word.length + min 1 after.length - 1) + 1 by omega, drop_succ_cons]
            _ = after.drop (min 1 after.length) := by
                rw [← hs, drop_append, drop_append, drop_of_length_le (by omega), drop_of_length_le (by omega)]
                simp
            _ = after.drop 1 := by cases after <;> simp
        simp only [if_true, Option.map_some, Option.elim_some, append_assoc]
        rw [replaceGlobalGo_drop, hr]

theorem replaceGlobalGo_piece : ∀ {p : Text} (first : Bool), ¬ globalWord <:+: p →
    replaceGlobalGo word new 0 first (p ++ y) = p ++ ((if opensAt first p then wholeWord? word y else none).elim
      (y.take 1 ++ replaceGlobalGo word new 0 false (y.drop 1))
      fun after => new ++ (after.take 1 ++ replaceGlobalGo word new 0 false (after.drop 1)))
  | [], first, hp => replaceGlobalGo_step hword hy first hp
  | a :: p, first, hp => by
    have hl : ¬ globalWord <:+: p := fun hin => hp (hin.trans (suffix_cons a p).isInfix)
    have hs : replaceGlobalGo word new 0 first (a :: p ++ y) = _ := replaceGlobalGo_step hword hy first hp
    rw [hs, opensAt, isEmpty_cons, Bool.and_false, Bool.false_or, Bool.false_or, endsOpen, cons_append, take_succ_cons,
      drop_succ_cons, drop_zero, take_zero, singleton_append, replaceGlobalGo_piece false hl, opensAt, Bool.false_and,
      Bool.false_or]
    cases isOpener (a :: p) with
    | false => rw [Bool.false_or, if_neg Bool.false_ne_true, Option.elim_none, cons_append]
    | true => cases wholeWord? word y <;> simp

end Walk

/-! ## Names in their places -/

theorem rejoined_cons (piece : Text) (pieces : List Text) :
    rejoined (piece :: pieces) = globalWord ++ (piece ++ rejoined pieces) := by
  rw [rejoined, map_cons, flatten_cons, append_assoc]
  rfl

theorem nameOrEnd_rejoined (pieces : List Text) : NameOrEnd (rejoined pieces) := by
  cases pieces with
  | nil => exact .inl rfl
  | cons piece pieces => exact rejoined_cons piece pieces ▸ nameOrEnd_of_mem mem_cons_self _

theorem calledMethod_mem (behind : Text) : calledMethod behind ∈ ruleKeys := by
  rw [calledMethod]
  split
  next h => exact mem_append_left _ (mem_map_of_mem h.2)
  next => exact mem_append_right _ mem_cons_self

section Named

variable {f : Option Text → Text} (hf : ∀ use, f use ∈ globalNames) {front piece key y : Text} {pieces : List Text}

include hf in
theorem nameOrEnd_namedBy : NameOrEnd (namedBy f front pieces) := by
  cases pieces with
  | nil => exact .inl rfl
  | cons piece pieces => exact nameOrEnd_of_mem (hf _) _

include hf in
theorem eq_nil_of_namedBy (h : namedBy f front pieces = []) : pieces = [] := by
  cases pieces with
  | nil => rfl
  | cons piece pieces =>
    have hn : f _ = [] := (append_eq_nil_iff.mp h).1
    exact absurd (hn ▸ hf _) (by decide)

theorem exists_of_use? (h : use? front (piece ++ rejoined pieces) = some key) (hn : pieces = [] → y = []) :
    ∃ p, piece = key ++ p ∧ closesUse (p ++ y) := by
  rw [use?] at h
  split at h
  next ho =>
    have he : rejoined pieces = [] → y = [] := fun hr => hn (by cases pieces <;> simp_all [rejoined])
    obtain rfl := Option.some.inj h
    rcases mem_append.mp (calledMethod_mem (piece ++ rejoined pieces)) with hmem | hmem
    · obtain ⟨m, hm, heq⟩ := mem_map.mp hmem
      obtain ⟨after, ha, hc⟩ := (calledMethod_eq_iff hm).mp heq.symm
      obtain ⟨p, rfl, rfl⟩ := exists_eq_append_of_key (mem_append_left _ (mem_map_of_mem hm)) (nameOrEnd_rejoined pieces) ha
      exact ⟨p, by rw [← heq], closesUse_append (nameOrEnd_rejoined pieces) he hc⟩
    · rw [mem_singleton.mp hmem]
      exact ⟨piece, rfl, closesUse_append (nameOrEnd_rejoined pieces) he (Bool.and_eq_true_iff.mp ho).2⟩
  next => cases h

theorem use?_of_key (hkey : key ∈ ruleKeys) (ho : opensUse front) (hy : NameOrEnd y)
    (hn : y = [] → pieces = []) (hcl : closesUse (p ++ y)) :
    ∃ method ∈ ruleKeys, use? front (key ++ p ++ rejoined pieces) = some method ∧ (method ≠ key → key = [] ∧ method ≠ []) := by
  have hb : closesUse (p ++ rejoined pieces) :=
    closesUse_append hy (fun h => by rw [hn h]; rfl) hcl
  rcases mem_append.mp hkey with hmem | hmem
  · obtain ⟨m, hm, rfl⟩ := mem_map.mp hmem
    have hc := (calledMethod_eq_iff hm).mpr ⟨_, append_assoc _ _ _, hb⟩
    exact ⟨_, hkey, by rw [use?, ho, hc]; rfl, fun h => absurd rfl h⟩
  · obtain rfl := mem_singleton.mp hmem
    refine ⟨_, calledMethod_mem _, by rw [use?, ho, nil_append, hb]; rfl, fun h => ⟨rfl, h⟩⟩

end Named

/-! ## The rules one after the other -/

/-- The name for a use after the rules for the methods `done`. -/
def nameAfter (done : List Text) (use : Option Text) : Text :=
  use.elim globalWord fun method => if method ∈ done then instead method else globalWord

theorem instead_mem (method : Text) : instead method ∈ globalNames ∧ instead method ≠ globalWord := by
  rw [instead]
  split <;> decide

theorem nameAfter_mem (done : List Text) (use : Option Text) : nameAfter done use ∈ globalNames := by
  cases use with
  | none => exact mem_cons_self
  | some method =>
    rw [nameAfter, Option.elim_some]
    split
    · exact (instead_mem method).1
    · exact mem_cons_self

theorem nameAfter_cons {key : Text} {done : List Text} {use : Option Text} (h : ¬ (use = some key ∧ key ∉ done)) :
    nameAfter (key :: done) use = nameAfter done use := by
  cases use with
  | none => rfl
  | some method =>
    have hi : method ∈ key :: done ↔ method ∈ done := by
      refine ⟨fun hm => Decidable.byContradiction fun hn => ?_, mem_cons_of_mem key⟩
      rw [(mem_cons.mp hm).resolve_right hn] at h hn
      exact h ⟨rfl, hn⟩
    simp only [nameAfter, Option.elim_some, hi]

theorem opensUse_append_cons (hc : c ∉ ("QtWidgets" : Text)) (ht : t ≠ []) (x : Text) :
    opensUse (x ++ c :: t) = endsOpen t := by
  rw [opensUse, endsOpen_append_cons hc ht]
  simp

theorem opensUse_of_use? {front method : Text} (h : use? front behind = some method) : opensUse front := by
  rw [use?] at h
  split at h
  next ho => exact (Bool.and_eq_true_iff.mp ho).1
  next => cases h

theorem eq_globalWord_of_append (hn : name ∈ globalNames) (h : name ++ s = globalWord ++ b) :
    name = globalWord ∧ s = b := by
  have hg : name = globalWord := (mem_cons.mp hn).resolve_right fun ho => by
    have hh := congrArg head? h
    simp only [mem_cons, not_mem_nil, or_false] at ho
    rcases ho with heq | heq <;> rw [heq] at hh <;> cases hh
  exact ⟨hg, append_cancel_left (hg ▸ h)⟩

theorem not_infix_name {piece : Text} (hn : name ∈ globalNames) (hp : ¬ globalWord <:+: piece) :
    ¬ globalWord <:+: name.drop 1 ++ piece := by
  have hq : 'q' ∉ name.drop 1 := (show ∀ name ∈ globalNames, 'q' ∉ name.drop 1 by decide) name hn
  generalize name.drop 1 = t at hq
  induction t with
  | nil => exact hp
  | cons c t ih =>
    rw [mem_cons, not_or] at hq
    rw [cons_append, infix_cons_iff, not_or]
    exact ⟨fun h => hq.1 (cons_prefix_cons.mp h).1, ih hq.2⟩

/-- What stands before the name: `p`, behind which the rule goes on, and all that stands there in the line. -/
def Faces (key front : Text) (pieces : List Text) (opens : Bool) : Prop :=
  ∀ behind, rejoined pieces = globalWord ++ behind →
    (opens = true → opensUse front = true) ∧ (use? front behind = some key → opens = true)

theorem faces_behind_use {key front : Text} {pieces : List Text} (hc : isAsciiWord c = false)
    (hu : use? front (key ++ c :: p ++ rejoined pieces) = some key)
    (hcr : ¬ Crowded (front ++ (globalWord ++ (key ++ c :: p)) ++ rejoined pieces)) :
    Faces key (front ++ (globalWord ++ (key ++ c :: p))) pieces (opensAt false p) := by
  have hs : c ∉ ("QtWidgets" : Text) := fun h =>
    absurd (all_eq_true.mp (show ("QtWidgets" : Text).all isAsciiWord by decide) c h) (by simp [hc])
  rintro behind hb
  cases p with
  | nil =>
    refine ⟨nofun, fun hn => absurd ⟨front, key, c, behind, ?_, ?_, hn⟩ hcr⟩
    · rw [hb]
      simp
    · rwa [hb, append_assoc, singleton_append] at hu
  | cons d p =>
    have ho := opensUse_append_cons hs (cons_ne_nil d p) (front ++ (globalWord ++ key))
    rw [append_assoc, append_assoc] at ho
    rw [ho]
    exact ⟨id, fun hn => ho.symm.trans (opensUse_of_use? hn)⟩

theorem opensUse_name {piece : Text} (hn : name ∈ globalNames) (hp : piece = [] → name = globalWord)
    (x : Text) : opensUse (x ++ (name ++ piece)) = endsOpen piece := by
  have hne : name ≠ [] := fun h => absurd (h ▸ hn) (by decide)
  rw [opensUse, (endsOpen_name hn hp x).1]
  simp [hne]

theorem faces_behind_name {key front piece : Text} {pieces : List Text} (hn : name ∈ globalNames)
    (hp : pieces ≠ [] → piece = [] → name = globalWord) :
    Faces key (front ++ (globalWord ++ piece)) pieces (opensAt false (name.drop 1 ++ piece)) := by
  intro behind hb
  have hne : pieces ≠ [] := fun h => by simp [h, rejoined] at hb
  rw [opensAt, Bool.false_and, Bool.false_or, (endsOpen_name hn (hp hne) []).2]
  have hfr : opensUse (front ++ (globalWord ++ piece)) = endsOpen piece :=
    opensUse_name mem_cons_self (fun _ => rfl) front
  rw [hfr]
  exact ⟨id, fun hnext => hfr ▸ opensUse_of_use? hnext⟩

section Rule

variable {key : Text} {done : List Text} (hkey : key ∈ ruleKeys)
  (hlast : key = [] → ∀ method ∈ ruleKeys, method ≠ [] → method ∈ done)

theorem nameAfter_eq_of_nil {front : Text} {pieces : List Text} (hne : pieces ≠ []) :
    nameAfter done (use? front ([] ++ rejoined pieces)) = globalWord := by
  cases hu : use? front ([] ++ rejoined pieces) with
  | none => rfl
  | some method =>
    obtain ⟨piece, pieces, rfl⟩ := exists_cons_of_ne_nil hne
    rw [use?, rejoined_cons, show closesUse ([] ++ (globalWord ++ (piece ++ rejoined pieces))) = false from rfl,
      Bool.and_false] at hu
    cases hu

include hkey hlast

theorem wholeWord?_eq_none {front piece : Text} {pieces : List Text} (hr : NameOrEnd rest)
    (hnil : rest = [] → pieces = []) (hop : opensUse front)
    (hu : ¬ (use? front (piece ++ rejoined pieces) = some key ∧ key ∉ done)) :
    wholeWord? (globalWord ++ key) (nameAfter done (use? front (piece ++ rejoined pieces)) ++ (piece ++ rest)) = none := by
  refine Option.eq_none_iff_forall_not_mem.mpr fun after ha => ?_
  obtain ⟨hs, hc⟩ := wholeWord?_eq_some_iff.mp ha
  rw [append_assoc] at hs
  obtain ⟨hn, hs⟩ := eq_globalWord_of_append (nameAfter_mem done _) hs
  obtain ⟨p, rfl, rfl⟩ := exists_eq_append_of_key hkey hr hs
  obtain ⟨method, hm, hfo, ho⟩ := use?_of_key hkey hop hr hnil hc
  rw [hfo, nameAfter, Option.elim_some] at hn
  have hdone : method ∉ done := fun h => (instead_mem method).2 (by rwa [if_pos h] at hn)
  by_cases hsa : method = key
  · subst hsa
    exact hu ⟨hfo, hdone⟩
  · exact hdone (hlast (ho hsa).1 method hm (ho hsa).2)

theorem replaceGlobalGo_namedBy : ∀ {pieces : List Text} {front p : Text} (first : Bool),
    (∀ piece ∈ pieces, ¬ globalWord <:+: piece) → ¬ globalWord <:+: p → ¬ Crowded (front ++ rejoined pieces) →
    Faces key front pieces (opensAt first p) →
    replaceGlobalGo (globalWord ++ key) (instead key ++ key) 0 first (p ++ namedBy (nameAfter done) front pieces) =
      p ++ namedBy (nameAfter (key :: done)) front pieces
  | [], front, p, first, _, hp, _, _ => by
    rw [namedBy, replaceGlobalGo_piece (prefix_append _ key) (.inl rfl) first hp,
      show wholeWord? (globalWord ++ key) [] = none from rfl, ite_self]
    rfl
  | piece :: pieces, front, p, first, hpieces, hp, hc, hfa => by
    obtain ⟨hpi, hla⟩ := forall_mem_cons.mp hpieces
    obtain ⟨ho, hfo⟩ := hfa _ (rejoined_cons piece pieces)
    rw [rejoined_cons, ← append_assoc, ← append_assoc, append_assoc front] at hc
    have hr : NameOrEnd (namedBy (nameAfter done) (front ++ (globalWord ++ piece)) pieces) :=
      nameOrEnd_namedBy (nameAfter_mem done)
    have hn := nameAfter_mem done (use? front (piece ++ rejoined pieces))
    rw [namedBy, namedBy, replaceGlobalGo_piece (prefix_append _ key) (nameOrEnd_of_mem hn _) first hp]
    by_cases hu : use? front (piece ++ rejoined pieces) = some key ∧ key ∉ done
    · -- a use of the rule: it is replaced, and the rule goes on behind the character after it
      obtain ⟨hu, hnew⟩ := hu
      obtain ⟨q, rfl, hcl⟩ := exists_of_use? hu fun h =>
        show namedBy (nameAfter done) (front ++ (globalWord ++ piece)) pieces = [] by rw [h, namedBy]
      have hnext : ∀ {c r}, q = c :: r → replaceGlobalGo (globalWord ++ key) (instead key ++ key) 0 false
          (r ++ namedBy (nameAfter done) (front ++ (globalWord ++ (key ++ q))) pieces) =
            r ++ namedBy (nameAfter (key :: done)) (front ++ (globalWord ++ (key ++ q))) pieces := by
        rintro c r rfl
        have hl : ¬ globalWord <:+: r := fun hin => hpi (hin.trans ⟨key ++ [c], [], by simp⟩)
        exact replaceGlobalGo_namedBy false hla hl hc
          (faces_behind_use (by simpa [closesUse] using hcl) hu hc)
      have hend : namedBy (nameAfter done) (front ++ (globalWord ++ (key ++ q))) pieces = [] → pieces = [] :=
        eq_nil_of_namedBy (nameAfter_mem done)
      rw [hu, show nameAfter done (some key) = globalWord from if_neg hnew,
        show nameAfter (key :: done) (some key) = instead key from if_pos mem_cons_self, if_pos (hfo hu)]
      generalize namedBy (nameAfter done) (front ++ (globalWord ++ (key ++ q))) pieces = rest at hr hcl hnext hend ⊢
      have hw : wholeWord? (globalWord ++ key) (globalWord ++ (key ++ q ++ rest)) = some (q ++ rest) :=
        wholeWord?_eq_some_iff.mpr ⟨by simp, hcl⟩
      rw [hw, Option.elim_some, append_assoc (instead key), append_assoc key]
      cases q with
      | nil =>
        have he : rest = [] := closesUse_nil hr hcl
        rw [he, hend he]
        rfl
      | cons c q => rw [cons_append, take_succ_cons, drop_succ_cons, drop_zero, take_zero, hnext rfl, singleton_append, cons_append]
    · -- anything else is passed over
      have hno : (if opensAt first p then wholeWord? (globalWord ++ key)
          (nameAfter done (use? front (piece ++ rejoined pieces)) ++
            (piece ++ namedBy (nameAfter done) (front ++ (globalWord ++ piece)) pieces)) else none) = none := by
        split
        next h => exact wholeWord?_eq_none hkey hlast hr (eq_nil_of_namedBy (nameAfter_mem done)) (ho h) hu
        next => rfl
      have hs : nameAfter (key :: done) (use? front (piece ++ rejoined pieces)) =
          nameAfter done (use? front (piece ++ rejoined pieces)) := nameAfter_cons hu
      have he : pieces ≠ [] → piece = [] → nameAfter done (use? front (piece ++ rejoined pieces)) = globalWord := by
        rintro hne rfl
        exact nameAfter_eq_of_nil hne
      rw [hno, Option.elim_none, hs]
      generalize nameAfter done (use? front (piece ++ rejoined pieces)) = name at hn he ⊢
      have hl := not_infix_name hn hpi
      have hnext := replaceGlobalGo_namedBy false hla hl hc (faces_behind_name hn he)
      obtain ⟨c, t, rfl⟩ : ∃ c t, name = c :: t := exists_cons_of_ne_nil fun h => absurd (h ▸ hn) (by decide)
      rw [drop_succ_cons, drop_zero, append_assoc, append_assoc] at hnext
      rw [cons_append, take_succ_cons, drop_succ_cons, drop_zero, take_zero, hnext, singleton_append, cons_append]

end Rule

theorem namedBy_congr {f g : Option Text → Text} (h : ∀ front behind, f (use? front behind) = g (use? front behind)) :
    ∀ (front : Text) (pieces : List Text), namedBy f front pieces = namedBy g front pieces
  | _, [] => rfl
  | front, piece :: pieces => by rw [namedBy, namedBy, h, namedBy_congr h]

theorem namedBy_nil : ∀ (front : Text) (pieces : List Text), namedBy (nameAfter []) front pieces = rejoined pieces
  | _, [] => rfl
  | front, piece :: pieces => by
    have hn : ∀ use, nameAfter [] use = globalWord := fun use => by cases use <;> simp [nameAfter]
    rw [namedBy, namedBy_nil, rejoined_cons, hn]

theorem foldl_replaceGlobal {head : Text} {pieces : List Text} (hh : ¬ globalWord <:+: head)
    (hp : ∀ piece ∈ pieces, ¬ globalWord <:+: piece) (hc : ¬ Crowded (head ++ rejoined pieces)) :
    ∀ (keys : List Text) {done : List Text},
      (∀ key ∈ keys, key ∈ ruleKeys ∧ (key = [] → ∀ method ∈ ruleKeys, method ≠ [] → method ∈ done)) →
      keys.foldl (fun line key => replaceGlobal line (globalWord ++ key) (instead key ++ key))
          (head ++ namedBy (nameAfter done) head pieces) =
        head ++ namedBy (nameAfter (keys.reverse ++ done)) head pieces
  | [], _, _ => rfl
  | key :: keys, done, hke => by
    obtain ⟨hkey, hke⟩ := forall_mem_cons.mp hke
    have hfa : Faces key head pieces (opensAt true head) := fun behind _ =>
      ⟨fun h => h, fun hu => opensUse_of_use? hu⟩
    rw [foldl_cons, replaceGlobal, replaceGlobalGo_namedBy hkey.1 hkey.2 true hp hh hc hfa,
      foldl_replaceGlobal hh hp hc keys, reverse_cons, append_assoc]
    · rfl
    · exact fun k hk => ⟨(hke k hk).1, fun h method hm hne => mem_cons_of_mem key ((hke k hk).2 h method hm hne)⟩

theorem applicationRules_eq : applicationRules = ruleKeys.map fun key => (globalWord ++ key, instead key ++ key) := by
  rw [applicationRules, classMethodRules, ruleKeys, map_append, map_map]
  rfl

/-! ## The settled line -/

theorem exists_of_occurrence {y a : Text} (hy : NameOrEnd y) (hp : ¬ globalWord <:+: p)
    (h : p ++ y = a ++ (globalWord ++ b)) : ∃ r, a = p ++ r ∧ y = r ++ (globalWord ++ b) := by
  rcases append_eq_append_iff.mp h with ⟨r, rfl, hr⟩ | ⟨r, rfl, hr⟩
  · exact ⟨r, rfl, hr⟩
  · cases r with
    | nil => exact ⟨[], by simp, hr.symm⟩
    | cons c r =>
      have hin := prefix_of_prefix_name hy (by decide) (by decide) (cons_ne_nil c r) ⟨b, hr⟩
      exact absurd (hin.isInfix.trans (suffix_append a _).isInfix) hp

section Settled

variable {done : List Text} (hdone : ∀ key ∈ ruleKeys, key ∈ done)

include hdone

theorem nameAfter_use? (front behind : Text) :
    nameAfter done (use? front behind) = (use? front behind).elim globalWord instead := by
  rw [use?]
  split
  · exact if_pos (hdone _ (calledMethod_mem behind))
  · rfl

theorem use?_eq_none_of_settled : ∀ {pieces : List Text} {front p : Text} (x : Text) {a b : Text},
    (∀ piece ∈ pieces, ¬ globalWord <:+: piece) → ¬ globalWord <:+: p →
    (pieces ≠ [] → opensUse (x ++ p) → opensUse front) →
    p ++ namedBy (nameAfter done) front pieces = a ++ (globalWord ++ b) → use? (x ++ a) b = none
  | [], front, p, x, a, b, _, hp, _, h => by
    rw [namedBy, append_nil] at h
    exact absurd ⟨a, b, by rw [h, append_assoc]⟩ hp
  | piece :: pieces, front, p, x, a, b, hpi, hp, hfr, h => by
    obtain ⟨hpiece, hla⟩ := forall_mem_cons.mp hpi
    have hn := nameAfter_mem done (use? front (piece ++ rejoined pieces))
    have hre : NameOrEnd (namedBy (nameAfter done) (front ++ (globalWord ++ piece)) pieces) :=
      nameOrEnd_namedBy (nameAfter_mem done)
    rw [namedBy] at h
    obtain ⟨r, rfl, hr⟩ := exists_of_occurrence (nameOrEnd_of_mem hn _) hp h
    cases r with
    | nil =>
      -- the name is still there, so it was no use
      obtain ⟨hg, rfl⟩ := eq_globalWord_of_append hn hr
      rw [append_nil, use?]
      split
      next hc =>
        rw [Bool.and_eq_true] at hc
        obtain ⟨method, hm, hfo, -⟩ := use?_of_key (mem_append_right _ mem_cons_self)
          (hfr (cons_ne_nil piece pieces) hc.1) hre (eq_nil_of_namedBy (nameAfter_mem done)) hc.2
        rw [nil_append] at hfo
        rw [hfo, nameAfter, Option.elim_some, if_pos (hdone method hm)] at hg
        exact absurd hg (instead_mem method).2
      next => rfl
    | cons c r =>
      have he : pieces ≠ [] → piece = [] → nameAfter done (use? front (piece ++ rejoined pieces)) = globalWord := by
        rintro hne rfl
        exact nameAfter_eq_of_nil hne
      generalize nameAfter done (use? front (piece ++ rejoined pieces)) = name at hn hr he
      have hl := not_infix_name hn hpiece
      have ho : pieces ≠ [] → opensUse (x ++ p ++ (name ++ piece)) → opensUse (front ++ (globalWord ++ piece)) :=
        fun hne h => by
          rw [opensUse_name hn (he hne)] at h
          rwa [opensUse_name mem_cons_self fun _ => rfl]
      obtain ⟨d, t, rfl⟩ : ∃ d t, name = d :: t := exists_cons_of_ne_nil fun h => absurd (h ▸ hn) (by decide)
      rw [cons_append, cons_append] at hr
      obtain ⟨rfl, ht⟩ := cons.inj hr
      rw [drop_succ_cons, drop_zero] at hl
      rw [← append_assoc] at ht
      have hnext := use?_eq_none_of_settled (x ++ p ++ [d]) hla hl (by simpa using ho) ht
      simpa using hnext

end Settled

theorem foldl_applicationRules {pieces : List Text} (hh : ¬ globalWord <:+: head)
    (hp : ∀ piece ∈ pieces, ¬ globalWord <:+: piece) (hc : ¬ Crowded (head ++ rejoined pieces)) :
    applicationRules.foldl (fun l rule => replaceGlobal l rule.1 rule.2) (head ++ rejoined pieces) =
      head ++ namedBy (nameAfter ruleKeys.reverse) head pieces := by
  have hk : ∀ key ∈ Catalogue.applicationMethods.map ('.' :: ·), key ∈ ruleKeys ∧
      (key = [] → ∀ method ∈ ruleKeys, method ≠ [] → method ∈ []) := fun key hkey =>
    ⟨mem_append_left _ hkey, fun h => by simp [h] at hkey⟩
  have hlast : ∀ key ∈ [[]], key ∈ ruleKeys ∧ (key = [] → ∀ method ∈ ruleKeys, method ≠ [] →
      method ∈ (Catalogue.applicationMethods.map ('.' :: ·)).reverse ++ []) := fun key hkey => by
    refine ⟨mem_append_right _ hkey, fun _ method hm hne => ?_⟩
    rw [append_nil, mem_reverse]
    exact (mem_append.mp hm).resolve_right fun h => hne (mem_singleton.mp h)
  rw [applicationRules_eq, foldl_map, ← namedBy_nil head, ruleKeys, foldl_append,
    foldl_replaceGlobal hh hp hc _ hk, foldl_replaceGlobal hh hp hc _ hlast, append_nil,
    reverse_append]

/-- **All uses of the global name are replaced**, in a line of code that is no import and in which no two uses are
crowded: a use before a method of the class becomes the class, any other one its instance, the rest of the line
stays as it is, and no use is left. -/
theorem application_uses_settled {line : Text} (hcode : line.isCode = true) (himport : line.isImport = false)
    (hcrowded : ¬ Crowded line) : applicationLine line = settled line ∧ ¬ HasUse (applicationLine line) := by
  obtain ⟨head, pieces, hsplit⟩ : ∃ head pieces, line.splitOn globalWord = head :: pieces := ⟨_, _, rfl⟩
  have hlacks : ∀ piece ∈ head :: pieces, ¬ globalWord <:+: piece := fun piece hmem =>
    splitOn_lacks (by decide) (hsplit ▸ hmem)
  obtain ⟨hhead, hpieces⟩ := forall_mem_cons.mp hlacks
  have hdone : ∀ key ∈ ruleKeys, key ∈ ruleKeys.reverse := fun key hkey => mem_reverse.mpr hkey
  have hsettled : settled line = head ++ namedBy (nameAfter ruleKeys.reverse) head pieces := by
    rw [settled, hsplit, headD_cons, tail_cons, namedBy_congr fun front behind => (nameAfter_use? hdone front behind).symm]
  obtain rfl : head ++ rejoined pieces = line := flatten_splitOn (by decide) hsplit
  have hline : applicationLine (head ++ rejoined pieces) = head ++ namedBy (nameAfter ruleKeys.reverse) head pieces := by
    rw [applicationLine, hcode, himport, if_neg Bool.false_ne_true, foldl_applicationRules hhead hpieces hcrowded]
    split
    next hnone =>
      cases pieces with
      | nil => rfl
      | cons piece pieces =>
        have hin : has (head ++ rejoined (piece :: pieces)) globalWord = true :=
          has_iff_infix.mpr ⟨head, piece ++ rejoined pieces, by rw [rejoined_cons, append_assoc]⟩
        rw [show has _ "qApp" = true from hin] at hnone
        cases hnone
    next => rfl
  refine ⟨hline.trans hsettled.symm, ?_⟩
  rintro ⟨front, behind, heq, huse⟩
  rw [hline] at heq
  have hnone := use?_eq_none_of_settled hdone [] hpieces hhead (fun _ h => h) heq
  rw [nil_append] at hnone
  rw [hnone] at huse
  cases huse

theorem not_crowded_two : ¬ Crowded "f(qApp, qApp.exec_())\n" := by
  rintro ⟨front, method, c, behind, hl, hu, -⟩
  have hc := congrArg (count 'q') hl
  rw [count_append, count_append, count_append, count_cons, count_append,
    show count 'q' globalWord = 1 from rfl, show count 'q' "f(qApp, qApp.exec_())\n".toList = 2 by decide] at hc
  obtain rfl : front = "f(" := eq_of_append_cons hl.symm (show front.count 'q' = 0 by omega)
  have hb : ", qApp.exec_())\n".toList = method ++ c :: (globalWord ++ behind) :=
    append_cancel_left (show "f(qApp".toList ++ _ = "f(qApp".toList ++ _ from hl)
  rw [← hb] at hu
  cases hu
  rw [show calledMethod _ = [] from if_neg fun h => absurd h.1 (by decide)] at hb
  exact absurd (cons.inj (cons.inj hb).2).1 (by decide)

theorem application_uses_settled_two : isCode "f(qApp, qApp.exec_())\n" = true ∧
    isImport "f(qApp, qApp.exec_())\n" = false ∧ ¬ Crowded "f(qApp, qApp.exec_())\n" ∧
      applicationLine "f(qApp, qApp.exec_())\n" = settled "f(qApp, qApp.exec_())\n" :=
  ⟨by decide, by decide, not_crowded_two, (application_uses_settled (by decide) (by decide) not_crowded_two).1⟩

/-- Two uses have a comma between them and nothing else: the second one is missed. -/
theorem second_use_missed : isCode "f(qApp,qApp)\n" = true ∧ isImport "f(qApp,qApp)\n" = false ∧
    applicationLine "f(qApp,qApp)\n" = "f(QApplication.instance(),qApp)\n" ∧
      HasUse (applicationLine "f(qApp,qApp)\n") := by
  have hline : applicationLine "f(qApp,qApp)\n" = "f(QApplication.instance(),qApp)\n" := by decide +kernel
  refine ⟨by decide, by decide, hline, ?_⟩
  rw [hline]
  exact ⟨"f(QApplication.instance(),", ")\n", rfl, rfl⟩

end QtMigration
