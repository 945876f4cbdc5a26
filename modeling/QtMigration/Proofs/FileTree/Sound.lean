import Mathlib.Data.List.Induction
import Mathlib.Data.List.Nodup
import Mathlib.Data.List.Perm.Subperm
import QtMigration.Proofs.FileTree.Growth
import QtMigration.Proofs.FileTree.Spelling

/-!
# Proofs/FileTree/Sound — trees in which everything stands in a directory

In a `Sound` tree everything has a name of its own in a directory, and the working directory is one.
-/

namespace QtMigration

open List

namespace Path

theorem mem_parts {part path : Text} (h : part ∈ parts path) : part ≠ [] ∧ '/' ∉ part := by
  rw [parts_eq] at h
  split at h
  · rcases mem_append.1 h with h | h
    · exact mem_names h
    · rw [mem_singleton.1 h]
      decide
  · exact mem_names h

end Path

namespace FileTree

open QtMigration.Path (IsName)

variable {t t' : FileTree} {p q dir : Location} {n : Node} {follow : Bool} {path name : Text}

/-- **Everything has a name of its own in a directory.** -/
structure Sound (t : FileTree) : Prop where
  here : t.node? t.here = some .directory
  placed : ∀ e ∈ t.entries, e.1 ≠ [] ∧ (∀ name ∈ e.1.getLast?, IsName name) ∧
    t.node? e.1.dropLast = some .directory
  nodup : (t.entries.map Prod.fst).Nodup

instance : DecidablePred Sound := fun t =>
  decidable_of_iff (t.node? t.here = some .directory ∧ (∀ e ∈ t.entries, e.1 ≠ [] ∧
    (∀ name ∈ e.1.getLast?, IsName name) ∧ t.node? e.1.dropLast = some .directory) ∧
    (t.entries.map Prod.fst).Nodup)
    ⟨fun h => ⟨h.1, h.2.1, h.2.2⟩, fun h => ⟨h.here, h.placed, h.nodup⟩⟩

/-! ## What stands above and below -/

theorem mem_of_lookup : ∀ {es : List (Location × Node)}, es.lookup p = some n → (p, n) ∈ es
  | [], h => by cases h
  | e :: es, h => by
    by_cases he : p = e.1
    · rw [← Prod.eta e, ← he, lookup_cons_self] at h
      obtain rfl := Option.some.inj h
      rw [he]
      exact mem_cons_self
    · rw [← Prod.eta e, lookup_cons_of_ne he] at h
      exact mem_cons_of_mem _ (mem_of_lookup h)

theorem mem_entries (hp : p ≠ []) (h : t.node? p = some n) : (p, n) ∈ t.entries := by
  cases p with
  | nil => exact absurd rfl hp
  | cons c p => exact mem_of_lookup h

theorem forall_node? {P : Location → Node → Prop} (hr : P [] .directory) (h : ∀ e ∈ t.entries, P e.1 e.2)
    (hn : t.node? p = some n) : P p n := by
  by_cases hp : p = []
  · subst hp
    cases hn
    exact hr
  · exact h _ (mem_entries hp hn)

theorem exists_node_of_mem {e : Location × Node} (h : e ∈ t.entries) : ∃ n, t.node? e.1 = some n := by
  cases hp : e.1 with
  | nil => exact ⟨.directory, rfl⟩
  | cons c p =>
    rw [← hp]
    have hl : (t.entries.lookup e.1).isSome := by
      rw [lookup_isSome_iff]
      exact ⟨e, h, by simp⟩
    obtain ⟨n, hn⟩ := Option.isSome_iff_exists.1 hl
    exact ⟨n, by rw [node?, hp]; rw [hp] at hn; exact hn⟩

theorem Sound.parent (ht : t.Sound) (h : t.node? (dir ++ [name]) = some n) :
    IsName name ∧ t.node? dir = some .directory := by
  obtain ⟨-, hn, hd⟩ := ht.placed _ (mem_entries (by simp) h)
  rw [dropLast_concat] at hd
  exact ⟨hn name (by simp), hd⟩

theorem Sound.node?_dropLast (ht : t.Sound) (h : t.node? p = some n) : t.node? p.dropLast = some .directory := by
  by_cases hp : p = []
  · rw [hp]
    rfl
  · exact (ht.placed _ (mem_entries hp h)).2.2

theorem Sound.above (ht : t.Sound) {rel : Location} (hr : rel ≠ []) :
    t.node? (p ++ rel) = some n → t.node? p = some .directory := by
  induction rel using List.reverseRecOn generalizing n with
  | nil => exact absurd rfl hr
  | append_singleton rel name ih =>
    intro h
    rw [← append_assoc] at h
    have hd := (ht.parent h).2
    by_cases hn : rel = []
    · rwa [hn, append_nil] at hd
    · exact ih hn hd

theorem Sound.isName (ht : t.Sound) {rel : Location} : t.node? (p ++ rel) = some n → ∀ name ∈ rel, IsName name := by
  induction rel using List.reverseRecOn generalizing n with
  | nil => simp
  | append_singleton rel name ih =>
    intro h other hm
    rw [← append_assoc] at h
    obtain ⟨hn, hd⟩ := ht.parent h
    rcases mem_append.1 hm with hm | hm
    · exact ih hd other hm
    · rwa [mem_singleton.1 hm]

theorem Sound.length_le (ht : t.Sound) (h : t.node? p = some n) : p.length ≤ t.entries.length := by
  have hin : ((List.range p.length).map fun i => p.take (i + 1)).Nodup := by
    refine nodup_range.map_on fun i hi j hj hij => ?_
    have hl := congrArg List.length hij
    rw [length_take, length_take] at hl
    have hi := mem_range.1 hi
    have hj := mem_range.1 hj
    omega
  have hs : ((List.range p.length).map fun i => p.take (i + 1)) ⊆ t.entries.map Prod.fst := by
    intro q hq
    obtain ⟨i, hi, rfl⟩ := mem_map.1 hq
    have hi := mem_range.1 hi
    have hne : p.take (i + 1) ≠ [] := by
      rw [← length_pos_iff, length_take]
      omega
    have hn : ∃ m, t.node? (p.take (i + 1)) = some m := by
      by_cases hr : p.drop (i + 1) = []
      · rw [← take_append_drop (i + 1) p, hr, append_nil] at h
        exact ⟨n, h⟩
      · rw [← take_append_drop (i + 1) p] at h
        exact ⟨_, ht.above hr h⟩
    obtain ⟨m, hm⟩ := hn
    exact mem_map.2 ⟨_, mem_entries hne hm, rfl⟩
  have hl := (hin.subperm hs).length_le
  simpa using hl

/-! ## Steps keep a tree sound -/

theorem mem_putEntry {e : Location × Node} : ∀ {es : List (Location × Node)},
    e ∈ putEntry p n es → e = (p, n) ∨ e ∈ es
  | [], h => by simpa [putEntry] using h
  | f :: es, h => by
    rw [putEntry] at h
    split at h
    · rcases mem_cons.1 h with h | h
      · exact .inl h
      · exact .inr (mem_cons_of_mem _ h)
    · rcases mem_cons.1 h with h | h
      · exact .inr (mem_cons.2 (.inl h))
      · exact (mem_putEntry h).imp_right (mem_cons_of_mem _)

theorem nodup_putEntry : ∀ {es : List (Location × Node)}, (es.map Prod.fst).Nodup →
    ((putEntry p n es).map Prod.fst).Nodup
  | [], _ => by simp [putEntry]
  | e :: es, h => by
    rw [putEntry]
    split
    next he =>
      have he : e.1 = p := by simpa using he
      rwa [map_cons, ← he]
    next he =>
      have he : e.1 ≠ p := by simpa using he
      rw [map_cons, nodup_cons] at h ⊢
      refine ⟨fun hm => ?_, nodup_putEntry h.2⟩
      obtain ⟨f, hf, hfe⟩ := mem_map.1 hm
      rcases mem_putEntry hf with rfl | hf
      · exact he hfe.symm
      · exact h.1 (hfe ▸ mem_map_of_mem hf)

theorem Sound.put (ht : t.Sound) (hd : t.node? dir = some .directory) (hn : IsName name)
    (hp : t.node? (dir ++ [name]) ≠ some .directory) (n : Node) : (t.put (dir ++ [name]) n).Sound := by
  have hne : dir ++ [name] ≠ [] := by simp
  have keeps : ∀ {q}, t.node? q = some .directory → (t.put (dir ++ [name]) n).node? q = some .directory := by
    intro q hq
    rw [node?_put_of_ne hne (by rintro rfl; exact hp hq), hq]
  refine ⟨keeps ht.here, fun e he => ?_, nodup_putEntry ht.nodup⟩
  rcases mem_putEntry he with rfl | he
  · refine ⟨hne, ?_, ?_⟩
    · simpa using hn
    · rw [dropLast_concat]
      exact keeps hd
  · obtain ⟨hne, hl, ha⟩ := ht.placed e he
    exact ⟨hne, hl, keeps ha⟩

def Trail.Fits (t : FileTree) : Trail → Prop
  | .reached p => ∃ n, t.node? p = some n
  | .vacant d name => t.node? d = some .directory ∧ IsName name
  | .broken _ => True
  | .link d _ rest => t.node? d = some .directory ∧ ∀ part ∈ rest, part ≠ [] ∧ '/' ∉ part

theorem Sound.advance (ht : t.Sound) (follow : Bool) : ∀ (parts : List Text) (dir : Location),
    (∀ part ∈ parts, part ≠ [] ∧ '/' ∉ part) → t.node? dir = some .directory →
    (t.advance follow dir parts).Fits t
  | [], dir, _, hd => by
    rw [FileTree.advance]
    exact ⟨_, hd⟩
  | part :: rest, dir, hpa, hd => by
    obtain ⟨hp, hr⟩ := forall_mem_cons.1 hpa
    rw [FileTree.advance]
    split
    · exact ht.advance follow rest dir hr hd
    next hdot =>
    split
    · exact ht.advance follow rest _ hr (ht.node?_dropLast hd)
    next hup =>
      have hna : IsName part := ⟨hp.1, hp.2, by simpa using hdot, by simpa using hup⟩
      split
      next hn =>
        split
        · exact ⟨hd, hna⟩
        · trivial
      next hn => exact ht.advance follow rest _ hr hn
      next hn =>
        split
        · exact ⟨_, hn⟩
        · exact ⟨hd, hr⟩
      next hn =>
      split
      · exact ⟨_, by assumption⟩
      · trivial

theorem node?_origin (hd : t.node? dir = some .directory) (path : Text) :
    t.node? (origin dir path) = some .directory := by
  rw [FileTree.origin]
  split
  · rfl
  · exact hd

theorem Sound.travel (ht : t.Sound) (follow : Bool) : ∀ (links : Nat) (dir : Location) (parts : List Text),
    (∀ part ∈ parts, part ≠ [] ∧ '/' ∉ part) → t.node? dir = some .directory →
    (t.travel follow links dir parts).Fits t
  | 0, dir, parts, hpa, hd => by
    rw [FileTree.travel]
    split
    · trivial
    · exact ht.advance follow parts dir hpa hd
  | links + 1, dir, parts, hpa, hd => by
    have hf := ht.advance follow parts dir hpa hd
    rw [FileTree.travel]
    split
    next d target rest hl =>
      rw [hl] at hf
      refine ht.travel follow links _ _ (fun part hp => ?_) (node?_origin hf.1 target)
      rcases mem_append.1 hp with hp | hp
      · exact Path.mem_parts hp
      · exact hf.2 part hp
    · exact hf

theorem Sound.locate_vacant (ht : t.Sound) (h : t.locate follow path = .ok (p, none)) :
    ∃ dir name, p = dir ++ [name] ∧ IsName name ∧ t.node? dir = some .directory := by
  have hf := ht.travel follow maxLinks (FileTree.origin t.here path) (Path.parts path)
    (fun _ => Path.mem_parts) (node?_origin ht.here path)
  rw [FileTree.locate] at h
  split at h
  · cases h
  split at h
  next q hq =>
    rw [hq] at hf
    obtain ⟨n, hn⟩ := hf
    obtain ⟨rfl, hno⟩ := Prod.mk.inj (Except.ok.inj h)
    rw [hn] at hno
    cases hno
  next d name hd =>
    rw [hd] at hf
    cases h
    exact ⟨d, name, rfl, hf.2, hf.1⟩
  · cases h
  · cases h

theorem Step.sound {W : Text → Prop} (h : Step W t t') (ht : t.Sound) : t'.Sound := by
  cases h with
  | new n h =>
    obtain ⟨dir, name, rfl, hn, hd⟩ := ht.locate_vacant h
    exact ht.put hd hn (by rw [node?_of_locate h]; simp) n
  | @file path p old new x y hw h =>
    have hp := node?_of_locate h
    obtain ⟨dir, name, rfl⟩ := (eq_nil_or_concat p).resolve_left (ne_nil_of_file hp)
    rw [concat_eq_append] at hp ⊢
    obtain ⟨hn, hd⟩ := ht.parent hp
    exact ht.put hd hn (by rw [hp]; simp) _

theorem Steps.sound {W : Text → Prop} (h : Steps W t t') (ht : t.Sound) : t'.Sound := by
  induction h with
  | refl => exact ht
  | tail _ hs ih => exact hs.sound ih

/-! ## The names in a directory -/

theorem insertSorted_perm (s : Text) : ∀ ss : List Text, (Text.insertSorted s ss).Perm (s :: ss)
  | [] => .refl _
  | u :: ss => by
    rw [Text.insertSorted]
    split
    · exact .refl _
    · exact ((insertSorted_perm s ss).cons u).trans (.swap s u ss)

theorem sort_perm (ss : List Text) : (Text.sort ss).Perm ss := by
  have h : ∀ (ss sorted : List Text),
      (ss.foldl (fun sorted s => Text.insertSorted s sorted) sorted).Perm (ss ++ sorted) := by
    intro ss
    induction ss with
    | nil => exact fun sorted => .refl _
    | cons s ss ih =>
      intro sorted
      exact (ih _).trans (((insertSorted_perm s sorted).append_left ss).trans perm_middle)
  simpa [Text.sort] using h ss []

theorem nameIn?_eq_some : nameIn? dir p = some name ↔ p = dir ++ [name] := by
  rcases eq_nil_or_concat p with rfl | ⟨d, c, rfl⟩
  · simp [nameIn?]
  · rw [concat_eq_append, nameIn?, dropLast_concat, getLast?_concat]
    by_cases h : d = dir <;> simp [h]

theorem mem_names : name ∈ t.names dir ↔ ∃ n, t.node? (dir ++ [name]) = some n := by
  rw [names, (sort_perm _).mem_iff, mem_filterMap]
  constructor
  · rintro ⟨e, he, hna⟩
    rw [← nameIn?_eq_some.1 hna]
    exact exists_node_of_mem he
  · rintro ⟨n, hn⟩
    exact ⟨_, mem_entries (by simp) hn, nameIn?_eq_some.2 rfl⟩

theorem exists_place_of_namesAt {names : List Text} (h : t.namesAt path = some names) :
    ∃ p, t.locate true path = .ok (p, some .directory) ∧ names = t.names p := by
  rw [namesAt] at h
  split at h
  next p hp => exact ⟨p, hp, (Option.some.inj h).symm⟩
  · cases h

theorem Sound.nodup_names (ht : t.Sound) (dir : Location) : (t.names dir).Nodup := by
  have hm : t.entries.filterMap (fun e => nameIn? dir e.1) = (t.entries.map Prod.fst).filterMap (nameIn? dir) := by
    rw [filterMap_map]
    rfl
  rw [names, (sort_perm _).nodup_iff, hm]
  refine List.Nodup.filterMap (fun p q name hp hq => ?_) ht.nodup
  rw [nameIn?_eq_some.1 hp, nameIn?_eq_some.1 hq]

theorem Sound.vacant_of_empty (ht : t.Sound) (he : t.names dir = []) {rel : Location} (hrel : rel ≠ []) :
    t.node? (dir ++ rel) = none := by
  obtain ⟨name, rel, rfl⟩ := exists_cons_of_ne_nil hrel
  rw [Option.eq_none_iff_forall_ne_some]
  intro n hn
  have hna : ∃ n, t.node? (dir ++ [name]) = some n := by
    rw [append_cons] at hn
    by_cases hr : rel = []
    · exact ⟨_, by rwa [hr, append_nil] at hn⟩
    · exact ⟨_, ht.above hr hn⟩
  rw [← mem_names, he] at hna
  cases hna

end FileTree

end QtMigration
