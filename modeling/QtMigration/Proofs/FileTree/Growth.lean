import Mathlib.Logic.Relation
import QtMigration.FileTree.Access

/-!
# Proofs/FileTree/Growth — a file tree only grows

No operation takes anything away from a tree: what stood at a place stands there afterwards, and only a file
may have got another content (`Grows`).
-/

namespace QtMigration

variable {x : Bool} {bytes : Bytes} {f : Bytes → Bytes} {found : Option Node} {dest source : Text}

/-- What became of a thing: it is as it was, or it is a file with another content. -/
inductive Node.Became : Node → Node → Prop
  | same (n : Node) : Became n n
  | written (old new : Bytes) (x y : Bool) : Became (.file old x) (.file new y)

theorem Node.Became.trans {a b c : Node} (h : a.Became b) (h' : b.Became c) : a.Became c := by
  cases h with
  | same => exact h'
  | written old new x y =>
    cases h' with
    | same => exact .written old new x y
    | written _ newer _ z => exact .written old newer x z

namespace FileTree

variable {t t' t'' : FileTree} {p q : Location} {n : Node} {follow : Bool} {path : Text}

/-! ## What stands at a place -/

theorem lookup_cons_of_ne (h : q ≠ p) (n : Node) (es : List (Location × Node)) :
    List.lookup q ((p, n) :: es) = es.lookup q := by
  rw [List.lookup_cons, beq_eq_false_iff_ne.2 h]

theorem lookup_putEntry (p q : Location) (n : Node) : ∀ es : List (Location × Node),
    (putEntry p n es).lookup q = if q = p then some n else es.lookup q
  | [] => by
    rw [putEntry]
    split
    next h => rw [h, List.lookup_cons_self]
    next h => rw [lookup_cons_of_ne h]
  | e :: es => by
    rw [putEntry]
    split
    next he =>
      have he : e.1 = p := by simpa using he
      split
      next h => rw [h, List.lookup_cons_self]
      next h => rw [lookup_cons_of_ne h, ← Prod.eta e, lookup_cons_of_ne (he ▸ h)]
    next he =>
      have he : e.1 ≠ p := by simpa using he
      by_cases h : q = e.1
      · rw [← Prod.eta e, ← h, List.lookup_cons_self, List.lookup_cons_self, if_neg (h ▸ he)]
      · rw [← Prod.eta e, lookup_cons_of_ne h, lookup_cons_of_ne h, lookup_putEntry p q n es]

@[simp] theorem node?_nil (t : FileTree) : t.node? [] = some .directory := rfl

theorem node?_put (t : FileTree) (q : Location) (n : Node) (hp : p ≠ []) :
    (t.put p n).node? q = if q = p then some n else t.node? q := by
  cases q with
  | nil => rw [if_neg (Ne.symm hp)]; rfl
  | cons c q =>
    exact lookup_putEntry p (c :: q) n t.entries

theorem node?_put_self (hp : p ≠ []) : (t.put p n).node? p = some n := by
  rw [node?_put t p n hp, if_pos rfl]

theorem node?_put_of_ne (hp : p ≠ []) (h : q ≠ p) : (t.put p n).node? q = t.node? q := by
  rw [node?_put t q n hp, if_neg h]

@[simp] theorem put_here (t : FileTree) (p : Location) (n : Node) : (t.put p n).here = t.here := rfl

theorem ne_nil_of_vacant (h : t.node? p = none) : p ≠ [] := by
  rintro rfl
  cases h

theorem ne_nil_of_file (h : t.node? p = some (.file bytes x)) : p ≠ [] := by
  rintro rfl
  cases h

/-! ## Growth -/

/-- **Nothing is lost between two trees.** -/
structure Grows (t t' : FileTree) : Prop where
  here_eq : t'.here = t.here
  became : ∀ {p n}, t.node? p = some n → ∃ n', t'.node? p = some n' ∧ n.Became n'

namespace Grows

theorem refl (t : FileTree) : Grows t t := ⟨rfl, fun h => ⟨_, h, .same _⟩⟩

theorem trans (h : Grows t t') (h' : Grows t' t'') : Grows t t'' where
  here_eq := h'.here_eq.trans h.here_eq
  became hn := by
    obtain ⟨n', hn', hb⟩ := h.became hn
    obtain ⟨n'', hn'', hb'⟩ := h'.became hn'
    exact ⟨n'', hn'', hb.trans hb'⟩

theorem put_new (hp : t.node? p = none) (n : Node) : Grows t (t.put p n) where
  here_eq := rfl
  became {q m} hq := by
    refine ⟨m, ?_, .same m⟩
    have hne : q ≠ p := by
      rintro rfl
      rw [hp] at hq
      cases hq
    rw [node?_put_of_ne (ne_nil_of_vacant hp) hne, hq]

theorem put_file {old new : Bytes} {y : Bool} (hp : t.node? p = some (.file old x)) :
    Grows t (t.put p (.file new y)) where
  here_eq := rfl
  became {q m} hq := by
    have hne := ne_nil_of_file hp
    by_cases h : q = p
    · subst h
      rw [hp] at hq
      obtain rfl := Option.some.inj hq
      exact ⟨_, node?_put_self hne, .written _ _ _ _⟩
    · exact ⟨m, by rw [node?_put_of_ne hne h, hq], .same m⟩

theorem directory (h : Grows t t') (hp : t.node? p = some .directory) : t'.node? p = some .directory := by
  obtain ⟨n', hn', hb⟩ := h.became hp
  cases hb
  exact hn'

theorem link (h : Grows t t') {target : Text} (hp : t.node? p = some (.link target)) :
    t'.node? p = some (.link target) := by
  obtain ⟨n', hn', hb⟩ := h.became hp
  cases hb
  exact hn'

theorem device (h : Grows t t') (hp : t.node? p = some .device) : t'.node? p = some .device := by
  obtain ⟨n', hn', hb⟩ := h.became hp
  cases hb
  exact hn'

theorem file (h : Grows t t') {bytes : Bytes} {x : Bool} (hp : t.node? p = some (.file bytes x)) :
    ∃ new y, t'.node? p = some (.file new y) := by
  obtain ⟨n', hn', hb⟩ := h.became hp
  cases hb with
  | same => exact ⟨_, _, hn'⟩
  | written _ new _ y => exact ⟨new, y, hn'⟩

end Grows

/-! ## Where a path leads -/

def Trail.holds : Trail → Bool
  | .reached _ | .link .. => true
  | .vacant .. | .broken _ => false

theorem Grows.advance (h : Grows t t') : ∀ (parts : List Text) (dir : Location),
    (t.advance follow dir parts).holds → t'.advance follow dir parts = t.advance follow dir parts
  | [], dir, _ => by rw [FileTree.advance, FileTree.advance]
  | part :: rest, dir, hh => by
    rw [FileTree.advance] at hh ⊢
    rw [FileTree.advance]
    split
    next hd =>
      rw [if_pos hd] at hh
      exact h.advance rest dir hh
    next hd =>
      rw [if_neg hd] at hh
      split
      next hup =>
        rw [if_pos hup] at hh
        exact h.advance rest dir.dropLast hh
      next hup =>
        rw [if_neg hup] at hh
        cases hn : t.node? (dir ++ [part]) with
        | none =>
          rw [hn] at hh
          dsimp only at hh
          split at hh <;> cases hh
        | some n =>
          rw [hn] at hh
          cases n with
          | directory =>
            rw [h.directory hn]
            exact h.advance rest (dir ++ [part]) hh
          | link target => rw [h.link hn]
          | device => rw [h.device hn]
          | file bytes x =>
            obtain ⟨new, y, hnew⟩ := h.file hn
            rw [hnew]

theorem Grows.travel (h : Grows t t') : ∀ (links : Nat) (dir : Location) (parts : List Text),
    t.travel follow links dir parts = .reached p → t'.travel follow links dir parts = .reached p
  | 0, dir, parts, hp => by
    rw [FileTree.travel] at hp ⊢
    cases ht : t.advance follow dir parts with
    | reached q =>
      rw [h.advance parts dir (by rw [ht]; rfl), ht]
      rwa [ht] at hp
    | vacant d name => rw [ht] at hp; cases hp
    | broken kind => rw [ht] at hp; cases hp
    | link d target rest => rw [ht] at hp; cases hp
  | links + 1, dir, parts, hp => by
    rw [FileTree.travel] at hp ⊢
    cases ht : t.advance follow dir parts with
    | reached q =>
      rw [h.advance parts dir (by rw [ht]; rfl), ht]
      rwa [ht] at hp
    | vacant d name => rw [ht] at hp; cases hp
    | broken kind => rw [ht] at hp; cases hp
    | link d target rest =>
      rw [h.advance parts dir (by rw [ht]; rfl), ht]
      rw [ht] at hp
      exact h.travel links _ _ hp

theorem advance_vacant {d : Location} {name : Text} : ∀ {parts : List Text} {dir : Location},
    t.advance follow dir parts = .vacant d name → t.node? (d ++ [name]) = none
  | [], dir, h => by rw [advance] at h; cases h
  | part :: rest, dir, h => by
    rw [advance] at h
    split at h
    · exact advance_vacant h
    split at h
    · exact advance_vacant h
    split at h
    next hn =>
      split at h
      · cases h
        exact hn
      · cases h
    · exact advance_vacant h
    · split at h <;> cases h
    · split at h <;> cases h

theorem travel_vacant {d : Location} {name : Text} : ∀ {links : Nat} {dir : Location} {parts : List Text},
    t.travel follow links dir parts = .vacant d name → t.node? (d ++ [name]) = none
  | 0, dir, parts, h => by
    rw [travel] at h
    split at h
    · cases h
    · exact advance_vacant h
  | links + 1, dir, parts, h => by
    rw [travel] at h
    split at h
    · exact travel_vacant h
    · exact advance_vacant h

theorem node?_of_locate (h : t.locate follow path = .ok (p, found)) : t.node? p = found := by
  rw [locate] at h
  split at h
  · cases h
  split at h
  next q hq =>
    cases h
    rfl
  next d name hd =>
    cases h
    exact travel_vacant hd
  · cases h
  · cases h

theorem Grows.locate (h : Grows t t') (hp : t.locate follow path = .ok (p, some n)) :
    t'.locate follow path = .ok (p, t'.node? p) := by
  rw [FileTree.locate] at hp ⊢
  split at hp
  · cases hp
  next hpa =>
    rw [if_neg hpa, h.here_eq]
    split at hp
    next q hq =>
      obtain ⟨rfl, -⟩ := Prod.mk.inj (Except.ok.inj hp)
      rw [h.travel maxLinks _ _ hq]
    · cases hp
    · cases hp
    · cases hp

def LeadsTo (t : FileTree) (path : Text) (p : Location) : Prop :=
  ∃ n, t.locate true path = .ok (p, some n)

theorem LeadsTo.grows (h : t.LeadsTo path p) (hg : Grows t t') : t'.LeadsTo path p := by
  obtain ⟨n, hn⟩ := h
  obtain ⟨n', hn', -⟩ := hg.became (node?_of_locate hn)
  exact ⟨n', by rw [hg.locate hn, hn']⟩

theorem locate_of_hasFile (h : t.hasFile path) :
    ∃ p bytes x, t.locate true path = .ok (p, some (.file bytes x)) := by
  rw [hasFile, stat] at h
  cases hl : t.locate true path with
  | error kind => rw [hl] at h; cases h
  | ok found =>
    obtain ⟨p, n | n⟩ := found
    · rw [hl] at h; cases h
    · rw [hl] at h
      cases n with
      | file bytes x => exact ⟨p, bytes, x, rfl⟩
      | _ => cases h

theorem Grows.hasFile (h : Grows t t') (hf : t.hasFile path) : t'.hasFile path := by
  obtain ⟨p, bytes, x, hp⟩ := locate_of_hasFile hf
  obtain ⟨new, y, hn⟩ := h.file (node?_of_locate hp)
  rw [FileTree.hasFile, stat, h.locate hp, hn]

/-! ## Which files are touched -/

/-- **Between two trees nothing is lost, and a file has got another content only if one of the paths
`W` leads to it.** -/
structure Touches (W : Text → Prop) (t t' : FileTree) : Prop where
  grows : Grows t t'
  kept : ∀ {p bytes x}, t.node? p = some (.file bytes x) →
    (∃ y, t'.node? p = some (.file bytes y)) ∨ ∃ w, W w ∧ t'.LeadsTo w p

/-- One change of a tree: something new, or another content or mark of a file. -/
inductive Step (W : Text → Prop) (t : FileTree) : FileTree → Prop
  | new {follow : Bool} {path : Text} {p : Location} (n : Node)
      (h : t.locate follow path = .ok (p, none)) : Step W t (t.put p n)
  | file {path : Text} {p : Location} {old new : Bytes} {x : Bool} (y : Bool) (hw : new = old ∨ W path)
      (h : t.locate true path = .ok (p, some (.file old x))) : Step W t (t.put p (.file new y))

def Steps (W : Text → Prop) : FileTree → FileTree → Prop := Relation.ReflTransGen (Step W)

variable {W : Text → Prop}

theorem Step.grows (h : Step W t t') : Grows t t' := by
  cases h with
  | new n h => exact .put_new (node?_of_locate h) n
  | file y hw h => exact .put_file (node?_of_locate h)

theorem Step.touches (h : Step W t t') : Touches W t t' := by
  refine ⟨h.grows, fun {q bytes z} hq => ?_⟩
  have hg := h.grows
  cases h with
  | @new _ _ p n h =>
    have hp := node?_of_locate h
    have hne : q ≠ p := by
      rintro rfl
      rw [hp] at hq
      cases hq
    exact .inl ⟨z, by rw [node?_put_of_ne (ne_nil_of_vacant hp) hne, hq]⟩
  | @file path p old new x y hw h =>
    have hp := node?_of_locate h
    by_cases hne : q = p
    · subst hne
      rcases hw with rfl | hw
      · rw [hp] at hq
        cases hq
        exact .inl ⟨y, node?_put_self (ne_nil_of_file hp)⟩
      · exact .inr ⟨path, hw, LeadsTo.grows ⟨_, h⟩ hg⟩
    · exact .inl ⟨z, by rw [node?_put_of_ne (ne_nil_of_file hp) hne, hq]⟩

namespace Touches

theorem refl (W : Text → Prop) (t : FileTree) : Touches W t t := ⟨.refl t, fun h => .inl ⟨_, h⟩⟩

theorem trans (h : Touches W t t') (h' : Touches W t' t'') : Touches W t t'' where
  grows := h.grows.trans h'.grows
  kept hp := by
    rcases h.kept hp with ⟨y, hy⟩ | ⟨w, hw, hl⟩
    · exact h'.kept hy
    · exact .inr ⟨w, hw, hl.grows h'.grows⟩

theorem read_eq (h : Touches W t t') (hf : t.hasFile path)
    (hw : ∀ w, W w → t'.same w path = false) : t'.read path = t.read path := by
  obtain ⟨p, bytes, x, hp⟩ := locate_of_hasFile hf
  have ha := h.grows.locate hp
  rcases h.kept (node?_of_locate hp) with ⟨y, hy⟩ | ⟨w, hwr, n, hn⟩
  · rw [hy] at ha
    rw [FileTree.read, FileTree.read, stat, stat, hp, ha]
  · have hs := hw w hwr
    rw [node?_of_locate hn] at ha
    rw [same, hn, ha] at hs
    simp at hs

end Touches

theorem Steps.touches (h : Steps W t t') : Touches W t t' := by
  induction h with
  | refl => exact .refl W t
  | tail _ hs ih => exact ih.trans hs.touches

/-! ## The operations -/

theorem locate_of_read (h : t.read path = .ok bytes) :
    ∃ p n, n ≠ .directory ∧ t.locate true path = .ok (p, some n) := by
  rw [read, stat] at h
  cases hl : t.locate true path with
  | error kind => rw [hl] at h; cases h
  | ok found =>
    obtain ⟨p, n | n⟩ := found
    · rw [hl] at h; cases h
    · refine ⟨p, n, ?_, rfl⟩
      rintro rfl
      rw [hl] at h
      cases h

theorem placeToWrite_eq_ok (h : t.placeToWrite path = .ok (p, found)) : t.locate true path = .ok (p, found) := by
  rw [placeToWrite] at h
  split at h
  · split at h <;> cases h
  split at h
  · cases h
  · exact h

/-- **What writing a file does**: it makes a new file, changes the one the path leads to, or does
nothing to a device. -/
theorem update_cases (h : t.update path f = .ok t') :
    (∃ p, t.locate true path = .ok (p, none) ∧ t' = t.put p (.file (f []) false)) ∨
      (∃ p old x, t.locate true path = .ok (p, some (.file old x)) ∧ t' = t.put p (.file (f old) x)) ∨
      t' = t := by
  rw [update] at h
  split at h
  · cases h
  next p hp =>
    cases h
    exact .inl ⟨p, placeToWrite_eq_ok hp, rfl⟩
  next p old x hp =>
    cases h
    exact .inr (.inl ⟨p, old, x, placeToWrite_eq_ok hp, rfl⟩)
  · cases h
    exact .inr (.inr rfl)

def copyPath (t : FileTree) (source dest : Text) : Text :=
  if t.hasDirectory dest then Path.join dest (Path.baseName source) else dest

theorem copy_eq (t : FileTree) (source dest : Text) : t.copy source dest =
    if t.same source (t.copyPath source dest) then .error (.sameFile source (t.copyPath source dest))
    else (t.read source).mapError .file >>= fun bytes =>
      ((t.write (t.copyPath source dest) bytes).bind fun t' =>
        t'.setExecutable (t.copyPath source dest) (t.isExecutable source)).mapError .file := by
  rw [copy]
  change (if t.same source (t.copyPath source dest) = true then _ else _) = _
  split
  · rfl
  · cases t.read source with
    | error f => rfl
    | ok bytes =>
      dsimp only
      rw [← copyPath]
      change _ = Except.mapError _ (Except.bind _ _)
      cases (t.write (t.copyPath source dest) bytes).bind _ <;> rfl

theorem copy_eq_ok (h : t.copy source dest = .ok t') :
    ∃ bytes t₁, t.same source (t.copyPath source dest) = false ∧ t.read source = .ok bytes ∧
      t.write (t.copyPath source dest) bytes = .ok t₁ ∧
      t₁.setExecutable (t.copyPath source dest) (t.isExecutable source) = .ok t' := by
  rw [copy_eq] at h
  split at h
  · cases h
  next hs =>
    cases hr : t.read source with
    | error f => rw [hr] at h; cases h
    | ok bytes =>
      cases hw : t.write (t.copyPath source dest) bytes with
      | error f =>
        rw [hr] at h
        change Except.mapError _ (Except.bind _ _) = _ at h
        rw [hw] at h
        cases h
      | ok t₁ =>
        refine ⟨bytes, t₁, by simpa using hs, rfl, hw, ?_⟩
        rw [hr] at h
        change Except.mapError _ (Except.bind _ _) = _ at h
        rw [hw] at h
        change Except.mapError _ (t₁.setExecutable _ _) = _ at h
        cases hset : t₁.setExecutable (t.copyPath source dest) (t.isExecutable source) with
        | error f => rw [hset] at h; cases h
        | ok t'' =>
          rw [hset] at h
          cases h
          rfl

theorem update_steps (hw : W path) (h : t.update path f = .ok t') : Steps W t t' := by
  rcases update_cases h with ⟨p, hp, rfl⟩ | ⟨p, old, x, hp, rfl⟩ | rfl
  · exact .single (.new _ hp)
  · exact .single (.file x (.inr hw) hp)
  · exact .refl

theorem setExecutable_steps {executable : Bool} (h : t.setExecutable path executable = .ok t') : Steps W t t' := by
  rw [setExecutable] at h
  split at h
  · cases h
  · cases h
  next p bytes x hp =>
    cases h
    exact .single (.file executable (.inl rfl) hp)
  · cases h
    exact .refl

/-- A directory is made where a path leads to nothing. -/
inductive Makes (t : FileTree) : FileTree → Prop
  | directory {follow : Bool} {path : Text} {p : Location} (h : t.locate follow path = .ok (p, none)) :
      Makes t (t.put p .directory)

theorem alsoMake_makes (path : Text) (t : FileTree) : Relation.ReflTransGen Makes t (alsoMake path t).1 := by
  rw [alsoMake]
  split
  next h =>
    rw [makeDirectory] at h
    split at h
    · cases h
    · cases h
    next p hp =>
      cases h
      exact .single (.directory hp)
  · exact .refl

theorem makeDirectoriesGo_makes : ∀ (height : Nat) (t : FileTree) (path : Text),
    Relation.ReflTransGen Makes t (makeDirectoriesGo height t path).1
  | 0, t, path => alsoMake_makes path t
  | height + 1, t, path => by
    rw [makeDirectoriesGo]
    generalize (if (Path.baseName path).isEmpty then Path.parent path else path) = bare
    split
    · exact alsoMake_makes path t
    · have ih := makeDirectoriesGo_makes height t (Path.parent bare)
      split
      next h => rwa [h] at ih
      next h => rwa [h] at ih
      next h => rwa [h] at ih
      next h =>
        rw [h] at ih
        split
        · exact ih
        · exact ih.trans (alsoMake_makes path _)

theorem makeDirectories_makes (t : FileTree) (path : Text) :
    Relation.ReflTransGen Makes t (t.makeDirectories path).1 :=
  makeDirectoriesGo_makes path.length t path

theorem node?_of_makes (h : Relation.ReflTransGen Makes t t') (p : Location) :
    t'.node? p = t.node? p ∨ t.node? p = none ∧ t'.node? p = some .directory := by
  induction h with
  | refl => exact .inl rfl
  | tail _ hs ih =>
    obtain ⟨hq⟩ := hs
    rename_i q
    have hv := node?_of_locate hq
    have hne := ne_nil_of_vacant hv
    by_cases hp : p = q
    · subst hp
      rw [hv] at ih
      rw [node?_put_self hne]
      rcases ih with ih | ih
      · exact .inr ⟨ih.symm, rfl⟩
      · cases ih.2
    · rwa [node?_put_of_ne hne hp]

theorem steps_of_makes (h : Relation.ReflTransGen Makes t t') : Steps W t t' := by
  induction h with
  | refl => exact .refl
  | tail _ hs ih =>
    obtain ⟨h⟩ := hs
    exact ih.tail (.new _ h)

theorem makeDirectories_steps (t : FileTree) (path : Text) : Steps W t (t.makeDirectories path).1 :=
  steps_of_makes (makeDirectories_makes t path)

theorem copy_steps (hw : W (t.copyPath source dest)) (h : t.copy source dest = .ok t') : Steps W t t' := by
  obtain ⟨bytes, t₁, -, -, hwr, hs⟩ := copy_eq_ok h
  exact (update_steps hw hwr).trans (setExecutable_steps hs)

end FileTree

end QtMigration
