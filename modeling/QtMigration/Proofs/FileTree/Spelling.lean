import Mathlib.Data.List.TakeWhile
import Mathlib.Tactic.NthRewrite
import QtMigration.FileTree.Path
import QtMigration.Proofs.Text.Split

/-!
# Proofs/FileTree/Spelling — the names a path is made of

A path is followed by its `names`, the parts between its slashes.
-/

namespace QtMigration

open List

variable {rel : List Text}

namespace Text

theorem splitGo_singleton_append (c : Char) (b : Text) : ∀ a : Text, splitGo [c] 0 (a ++ c :: b) =
      ((splitGo [c] 0 a).1, (splitGo [c] 0 a).2 ++ (splitGo [c] 0 b).1 :: (splitGo [c] 0 b).2)
  | [] => by simp [splitGo]
  | d :: a => by
    rw [cons_append, splitGo, splitGo, splitGo_singleton_append c b a]
    by_cases h : c = d <;> simp [h, splitGo_singleton_append]

theorem splitOn_singleton_append (c : Char) (a b : Text) :
    (a ++ c :: b).splitOn [c] = a.splitOn [c] ++ b.splitOn [c] := by
  simp [splitOn, splitGo_singleton_append]

theorem endsWith_singleton_iff {s : Text} {c : Char} : s.endsWith [c] ↔ ∃ front, s = front ++ [c] := by
  rw [endsWith, isSuffixOf_iff_suffix]
  constructor
  · rintro ⟨front, h⟩
    exact ⟨front, h.symm⟩
  · rintro ⟨front, h⟩
    exact ⟨front, h.symm⟩

end Text

namespace Path

variable {path base name front : Text}

def IsName (s : Text) : Prop := s ≠ [] ∧ '/' ∉ s ∧ s ≠ ['.'] ∧ s ≠ ['.', '.']

instance : DecidablePred IsName := fun _ => inferInstanceAs (Decidable (_ ∧ _))

/-- The names that a path is made of, `.` and `..` among them. -/
def names (path : Text) : List Text := (path.splitOn ['/']).filter fun part => !part.isEmpty

theorem parts_eq (path : Text) : parts path = if path.endsWith ['/'] then names path ++ [['.']] else names path := rfl

theorem names_append_slash (a b : Text) : names (a ++ '/' :: b) = names a ++ names b := by
  rw [names, Text.splitOn_singleton_append, filter_append]
  rfl

@[simp] theorem names_nil : names [] = [] := rfl

theorem names_of_notMem (hne : name ≠ []) (h : '/' ∉ name) : names name = [name] := by
  rw [names, Text.splitOn_of_not_has (Text.has_eq_false_of_notMem (mem_singleton_self '/') h)]
  simp [hne]

theorem mem_names (h : name ∈ names path) : name ≠ [] ∧ '/' ∉ name := by
  obtain ⟨hm, hne⟩ := mem_filter.1 h
  refine ⟨by simpa using hne, fun hs => ?_⟩
  obtain ⟨a, b, hab⟩ := append_of_mem hs
  exact Text.splitOn_lacks (cons_ne_nil '/' []) hm ⟨a, b, by simp [hab]⟩

theorem names_append_slashes (a : Text) : ∀ n, names (a ++ List.replicate n '/') = names a
  | 0 => by simp
  | n + 1 => by
    rw [replicate_succ, names_append_slash, ← nil_append (List.replicate n '/'),
      names_append_slashes [] n, names_nil, append_nil]

/-! ## Joined paths -/

theorem isAbsolute_cons (c : Char) (s : Text) : isAbsolute (c :: s) = (c == '/') := by
  have h : isAbsolute (c :: s) = (('/' == c) && true) := rfl
  rw [h, Bool.and_true, BEq.comm]

theorem isAbsolute_append (hne : base ≠ []) (s : Text) : isAbsolute (base ++ s) = isAbsolute base := by
  cases base with
  | nil => exact absurd rfl hne
  | cons c base => rw [cons_append, isAbsolute_cons, isAbsolute_cons]

theorem isAbsolute_eq_false (h : '/' ∉ name) : isAbsolute name = false := by
  cases name with
  | nil => rfl
  | cons c s =>
    rw [isAbsolute_cons]
    simp only [mem_cons, not_or] at h
    simpa using Ne.symm h.1

theorem join_eq (h : '/' ∉ name) : join base name =
    if base.isEmpty || base.endsWith ['/'] then base ++ name else base ++ '/' :: name := by
  rw [join, isAbsolute_eq_false h]
  change (if base.isEmpty || base.endsWith ['/'] then base ++ name else base ++ ['/'] ++ name) = _
  rw [append_assoc]
  rfl

theorem prefix_join (base : Text) (h : '/' ∉ name) : base <+: join base name := by
  rw [join_eq h]
  split <;> exact prefix_append ..

theorem join_eq_append (h : '/' ∉ name) : join base name = join base [] ++ name := by
  rw [join_eq h, join_eq not_mem_nil]
  split <;> simp

theorem exists_join (hne : base ≠ []) (h : '/' ∉ name) :
    ∃ front, join base name = front ++ '/' :: name ∧ names front = names base := by
  rw [join_eq h]
  have he : base.isEmpty = false := by simpa using hne
  rw [he, Bool.false_or]
  split
  next hend =>
    obtain ⟨front, rfl⟩ := Text.endsWith_singleton_iff.1 hend
    refine ⟨front, by simp, ?_⟩
    have := names_append_slash front []
    simpa using this.symm
  · exact ⟨base, rfl, rfl⟩

theorem names_join (hb : base ≠ []) (hne : name ≠ []) (h : '/' ∉ name) :
    names (join base name) = names base ++ [name] := by
  obtain ⟨front, hj, hn⟩ := exists_join hb h
  rw [hj, names_append_slash, hn, names_of_notMem hne h]

theorem join_ne_nil (base : Text) (hne : name ≠ []) (h : '/' ∉ name) : join base name ≠ [] := by
  rw [join_eq h]
  split <;> simp [hne]

theorem isAbsolute_join (hne : base ≠ []) (h : '/' ∉ name) : isAbsolute (join base name) = isAbsolute base := by
  obtain ⟨rest, hr⟩ := prefix_join base h
  rw [← hr, isAbsolute_append hne]

theorem endsWith_append_eq_false (hne : name ≠ []) (h : '/' ∉ name) (s : Text) :
    Text.endsWith (s ++ name) ['/'] = false := by
  rw [Bool.eq_false_iff]
  intro he
  obtain ⟨front, hf⟩ := Text.endsWith_singleton_iff.1 he
  have hl := congrArg List.getLast? hf
  rw [getLast?_append, getLast?_eq_some_getLast hne, Option.some_or, getLast?_concat] at hl
  exact h (Option.some.inj hl ▸ getLast_mem hne)

theorem endsWith_join (hne : name ≠ []) (h : '/' ∉ name) : (join base name).endsWith ['/'] = false := by
  rw [join_eq h]
  split
  · exact endsWith_append_eq_false hne h base
  · rw [append_cons]
    exact endsWith_append_eq_false hne h (base ++ ['/'])

/-- **The path is `base`, or has more names behind it.** -/
inductive Below (base : Text) : Text → Prop
  | refl : Below base base
  | join {path name : Text} (h : Below base path) (hname : IsName name) : Below base (join path name)

theorem Below.ne_nil (h : Below base path) (hb : base ≠ []) : path ≠ [] := by
  cases h with
  | refl => exact hb
  | join h hn => exact join_ne_nil _ hn.1 hn.2.1

/-! ## Several names more -/

def extend (base : Text) (rel : List Text) : Text := rel.foldl join base

def slashed (rel : List Text) : Text := rel.flatMap ('/' :: ·)

theorem extend_concat (base : Text) (rel : List Text) (name : Text) :
    extend base (rel ++ [name]) = join (extend base rel) name := by
  rw [extend, foldl_append]
  rfl

theorem extend_cons : ∀ {base name : Text} {rel : List Text}, IsName name → (∀ n ∈ rel, IsName n) →
    extend base (name :: rel) = join base name ++ slashed rel
  | base, name, [], _, _ => (append_nil _).symm
  | base, name, next :: rel, hn, hr => by
    obtain ⟨hne, hr⟩ := forall_mem_cons.1 hr
    have he : (join base name).isEmpty = false := by
      simpa using join_ne_nil base hn.1 hn.2.1
    have ih := @extend_cons (join base name) next rel hne hr
    rw [join_eq hne.2.1, he, endsWith_join hn.1 hn.2.1] at ih
    change extend (join base name) (next :: rel) = _
    rw [ih]
    simp [slashed]

theorem names_append_slashed (hr : ∀ n ∈ rel, IsName n) (s : Text) : names (s ++ slashed rel) = names s ++ rel := by
  induction rel generalizing s with
  | nil => simp [slashed]
  | cons name rel ih =>
    obtain ⟨hn, hr⟩ := forall_mem_cons.1 hr
    have hs : s ++ slashed (name :: rel) = (s ++ '/' :: name) ++ slashed rel := by simp [slashed]
    rw [hs, ih hr, names_append_slash, names_of_notMem hn.1 hn.2.1, append_assoc]
    rfl

/-- What stands in a longer path behind the path that was extended. -/
def behind (base : Text) (rel : List Text) : Text := (extend base rel).drop base.length

theorem extend_eq_append (hr : ∀ n ∈ rel, IsName n) (base : Text) : extend base rel = base ++ behind base rel := by
  have hp : base <+: extend base rel := by
    cases rel with
    | nil => exact prefix_rfl
    | cons name rel =>
      obtain ⟨hn, hr⟩ := forall_mem_cons.1 hr
      rw [extend_cons hn hr]
      exact (prefix_join base hn.2.1).trans (prefix_append ..)
  obtain ⟨rest, hre⟩ := hp
  rw [behind, ← hre, drop_left]

theorem names_append_behind {source dest : Text} (hr : ∀ n ∈ rel, IsName n)
    (hs : source ≠ []) (hsl : source.endsWith ['/'] → dest.endsWith ['/']) :
    names (dest ++ behind source rel) = names dest ++ rel := by
  cases rel with
  | nil => simp [behind, extend]
  | cons name rel =>
    obtain ⟨hn, hr⟩ := forall_mem_cons.1 hr
    have he : source.isEmpty = false := by simpa using hs
    have hna : ∀ front, names (front ++ '/' :: (name ++ slashed rel)) = names front ++ name :: rel := by
      intro front
      rw [names_append_slash, names_append_slashed hr, names_of_notMem hn.1 hn.2.1]
      rfl
    rw [behind, extend_cons hn hr, join_eq hn.2.1, he, Bool.false_or]
    split
    next hend =>
      obtain ⟨front, rfl⟩ := Text.endsWith_singleton_iff.1 (hsl hend)
      rw [append_assoc source, drop_left, append_assoc, singleton_append, hna]
      exact congrArg (· ++ name :: rel) (names_append_slashes front 1).symm
    · rw [append_assoc, drop_left, cons_append, hna]

theorem names_extend (hr : ∀ n ∈ rel, IsName n) (hb : base ≠ []) :
    names (extend base rel) = names base ++ rel := by
  rw [extend_eq_append hr, names_append_behind hr hb id]

theorem isAbsolute_extend (hr : ∀ n ∈ rel, IsName n) (hb : base ≠ []) :
    isAbsolute (extend base rel) = isAbsolute base := by
  rw [extend_eq_append hr, isAbsolute_append hb]

/-! ## The last name and the others -/

theorem baseName_append (h : '/' ∉ name) : baseName (front ++ '/' :: name) = name := by
  rw [baseName, Text.afterLast, reverse_append, reverse_cons, append_assoc, takeWhile_append_of_pos]
  · simp
  · intro c hc
    have hne : c ≠ '/' := fun heq => h (heq ▸ mem_reverse.1 hc)
    simpa using hne

theorem slash_notMem_baseName (path : Text) : '/' ∉ baseName path := by
  rw [baseName, Text.afterLast, mem_reverse]
  intro h
  have := mem_takeWhile_imp h
  simp at this

theorem exists_baseName (path : Text) : baseName path = path ∨ ∃ front, path = front ++ '/' :: baseName path := by
  have hs := takeWhile_append_dropWhile (p := (· != '/')) (l := path.reverse)
  have hp : path = (path.reverse.dropWhile (· != '/')).reverse ++ baseName path := by
    rw [baseName, Text.afterLast, ← reverse_append, hs, reverse_reverse]
  cases hd : path.reverse.dropWhile (· != '/') with
  | nil =>
    rw [hd] at hp
    exact .inl hp.symm
  | cons c rest =>
    have hc : c = '/' := by
      have := head_dropWhile_not (· != '/') (l := path.reverse) (by rw [hd]; simp)
      simpa [hd] using this
    rw [hd, hc, reverse_cons] at hp
    exact .inr ⟨rest.reverse, by simpa using hp⟩

theorem baseName_join (h : '/' ∉ name) : baseName (join base name) = name := by
  rw [join_eq h]
  split
  next he =>
    rcases Bool.or_eq_true_iff.1 he with hn | he
    · rw [List.isEmpty_iff.1 hn, nil_append]
      rcases exists_baseName name with hb | ⟨front, hf⟩
      · exact hb
      · exact absurd (hf ▸ mem_append_right front mem_cons_self) h
    · obtain ⟨front, rfl⟩ := Text.endsWith_singleton_iff.1 he
      rw [append_assoc]
      exact baseName_append h
  · exact baseName_append h

theorem exists_trimRightOf_slash (s : Text) : ∃ n, s = s.trimRightOf ['/'] ++ List.replicate n '/' := by
  refine ⟨(s.reverse.takeWhile (['/'].contains ·)).length, ?_⟩
  have hsp := takeWhile_append_dropWhile (p := (['/'].contains ·)) (l := s.reverse)
  have hs : s.reverse.takeWhile (['/'].contains ·) =
      List.replicate (s.reverse.takeWhile (['/'].contains ·)).length '/' := by
    refine eq_replicate_of_mem fun c hc => ?_
    have := mem_takeWhile_imp hc
    simpa using this
  have := congrArg List.reverse hsp
  rw [reverse_append, reverse_reverse, hs, reverse_replicate] at this
  exact this.symm

theorem parent_append (h : '/' ∉ name) : parent (front ++ '/' :: name) =
    if (front ++ ['/']).all (· == '/') then front ++ ['/'] else (front ++ ['/']).trimRightOf ['/'] := by
  have hh : Text.dropEnd (front ++ '/' :: name) (baseName (front ++ '/' :: name)).length = front ++ ['/'] := by
    rw [baseName_append h, Text.dropEnd, append_cons, length_append, Nat.add_sub_cancel, take_left]
  rw [parent, hh]
  rfl

theorem names_parent (h : '/' ∉ name) : names (parent (front ++ '/' :: name)) = names front := by
  have hs : names (front ++ ['/']) = names front := names_append_slashes front 1
  rw [parent_append h]
  split
  · exact hs
  · obtain ⟨n, hn⟩ := exists_trimRightOf_slash (front ++ ['/'])
    rw [← hs]
    nth_rewrite 2 [hn]
    rw [names_append_slashes]

theorem isAbsolute_parent (h : '/' ∉ name) : parent (front ++ '/' :: name) ≠ [] ∧
    isAbsolute (parent (front ++ '/' :: name)) = isAbsolute (front ++ '/' :: name) := by
  have hw : isAbsolute (front ++ '/' :: name) = isAbsolute (front ++ ['/']) := by
    rw [append_cons, isAbsolute_append (by simp)]
  rw [hw, parent_append h]
  split
  · exact ⟨by simp, rfl⟩
  next ha =>
    obtain ⟨n, hn⟩ := exists_trimRightOf_slash (front ++ ['/'])
    have hne : (front ++ ['/']).trimRightOf ['/'] ≠ [] := by
      intro hnil
      rw [hnil, nil_append] at hn
      rw [hn] at ha
      simp at ha
    refine ⟨hne, ?_⟩
    nth_rewrite 2 [hn]
    rw [isAbsolute_append hne]

end Path

end QtMigration
