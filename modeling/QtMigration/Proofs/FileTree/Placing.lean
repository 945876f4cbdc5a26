import QtMigration.Proofs.FileTree.Follow

/-!
# Proofs/FileTree/Placing — copies and directories in a directory

What is made in a directory under a name stands at that name, whatever way the path of the directory is
spelled, and nothing else changes: the tree is the one before it with one `put`.
-/

namespace QtMigration

namespace Path

variable {path base name : Text}

theorem trimRightOf_slash (h : path.endsWith ['/'] = false) : path.trimRightOf ['/'] = path := by
  obtain ⟨n, hn⟩ := exists_trimRightOf_slash path
  cases n with
  | zero => simpa using hn.symm
  | succ n =>
    have he : path.endsWith ['/'] := by
      rw [Text.endsWith_singleton_iff, hn, List.replicate_succ', ← List.append_assoc]
      exact ⟨_, rfl⟩
    rw [h] at he
    cases he

theorem withoutSlash_join (hname : IsName name) : FileTree.withoutSlash (join base name) = join base name := by
  rw [FileTree.withoutSlash]
  split
  · rfl
  · exact trimRightOf_slash (endsWith_join hname.1 hname.2.1)

end Path

namespace FileTree

open QtMigration.Path (IsName)

variable {t : FileTree} {p q r : Location} {n : Node} {base source name : Text} {bytes : Bytes} {x : Bool}

theorem putEntry_putEntry (p : Location) (m n : Node) : ∀ es : List (Location × Node),
    putEntry p n (putEntry p m es) = putEntry p n es
  | [] => by simp [putEntry]
  | e :: es => by
    by_cases he : e.1 = p
    · simp [putEntry, he]
    · simp [putEntry, he, putEntry_putEntry p m n es]

theorem put_put (t : FileTree) (p : Location) (m n : Node) : (t.put p m).put p n = t.put p n := by
  rw [put, put, put, putEntry_putEntry]

def Writable (t : FileTree) (p : Location) : Prop := ∀ n, t.node? p = some n → ∃ bytes x, n = .file bytes x

theorem Writable.not_link (h : t.Writable p) (target : Text) : t.node? p ≠ some (.link target) := by
  intro hl
  obtain ⟨bytes, x, hn⟩ := h _ hl
  cases hn

theorem Writable.not_directory (h : t.Writable p) : t.node? p ≠ some .directory := by
  intro hd
  obtain ⟨bytes, x, hn⟩ := h _ hd
  cases hn

theorem Writable.grows (h : t.Writable p) (bytes : Bytes) (x : Bool) : Grows t (t.put p (.file bytes x)) := by
  cases hn : t.node? p with
  | none => exact .put_new hn _
  | some n =>
    obtain ⟨old, y, rfl⟩ := h n hn
    exact .put_file hn

section Into

variable (ht : t.Sound) (hbase : t.locate true base = .ok (q, some .directory)) (hname : IsName name)
include ht hbase hname

theorem Sound.put_into (hp : t.node? (q ++ [name]) ≠ some .directory) (n : Node) : (t.put (q ++ [name]) n).Sound :=
  ht.put (node?_of_locate hbase) hname hp n

theorem Sound.locate_into (hp : t.Writable (q ++ [name])) :
    t.locate true (Path.join base name) = .ok (q ++ [name], t.node? (q ++ [name])) :=
  ht.locate_join hbase hname (.inr hp.not_link)

theorem Sound.write_into (hp : t.Writable (q ++ [name])) (bytes : Bytes) :
    ∃ x, t.write (Path.join base name) bytes = .ok (t.put (q ++ [name]) (.file bytes x)) := by
  have hl := ht.locate_into hbase hname hp
  have hpl : t.placeToWrite (Path.join base name) = .ok (q ++ [name], t.node? (q ++ [name])) := by
    rw [placeToWrite]
    change (if (Text.endsWith (Path.join base name) ['/'] && _) = true then _ else _) = _
    rw [Path.endsWith_join hname.1 hname.2.1, Bool.false_and, if_neg Bool.false_ne_true, hl]
    split
    next hd => exact absurd (Prod.mk.inj (Except.ok.inj hd)).2 hp.not_directory
    · rfl
  rw [write, update, hpl]
  cases hn : t.node? (q ++ [name]) with
  | none => exact ⟨false, rfl⟩
  | some n =>
    obtain ⟨old, x, rfl⟩ := hp n hn
    exact ⟨x, rfl⟩

theorem Sound.copyPath_into (hp : t.Writable (q ++ [name])) :
    t.copyPath source (Path.join base name) = Path.join base name := by
  have hd : t.hasDirectory (Path.join base name) = false := by
    rw [hasDirectory, stat, ht.locate_into hbase hname hp]
    cases hn : t.node? (q ++ [name]) with
    | none => rfl
    | some n =>
      obtain ⟨old, y, rfl⟩ := hp n hn
      rfl
  rw [copyPath, hd, if_neg Bool.false_ne_true]

theorem Sound.copy_into (hp : t.Writable (q ++ [name]))
    (hs : t.locate true source = .ok (r, some (.file bytes x))) (hne : r ≠ q ++ [name]) :
    t.copy source (Path.join base name) = .ok (t.put (q ++ [name]) (.file bytes x)) := by
  have hl := ht.locate_into hbase hname hp
  have hsa : t.same source (Path.join base name) = false := by
    rw [same, hs, hl]
    cases t.node? (q ++ [name]) with
    | none => rfl
    | some n => simpa using hne
  have hr : t.read source = .ok bytes := by rw [FileTree.read, stat, hs]
  have hm : t.isExecutable source = x := by rw [isExecutable, stat, hs]
  obtain ⟨y, hw⟩ := ht.write_into hbase hname hp bytes
  -- The mark is set in the tree that has the copy, where the path leads to it.
  have hpa : q ++ [name] ≠ [] := by simp
  have ha : (t.put (q ++ [name]) (.file bytes y)).locate true (Path.join base name) =
      .ok (q ++ [name], some (.file bytes y)) := by
    have hg := hp.grows bytes y
    have hbase' := hg.locate hbase
    rw [hg.directory (node?_of_locate hbase)] at hbase'
    rw [(ht.put_into hbase hname hp.not_directory _).locate_join hbase' hname
      (.inr (by simp [node?_put_self hpa])), node?_put_self hpa]
  have hset : (t.put (q ++ [name]) (.file bytes y)).setExecutable (Path.join base name) x =
      .ok (t.put (q ++ [name]) (.file bytes x)) := by
    rw [setExecutable, ha]
    exact congrArg Except.ok (put_put ..)
  rw [copy_eq, ht.copyPath_into hbase hname hp, hsa, if_neg Bool.false_ne_true, hr]
  change Except.mapError _ (Except.bind _ _) = _
  rw [hw, hm]
  change Except.mapError _ (setExecutable _ _ _) = _
  rw [hset]
  rfl

theorem Sound.copy_self (hs : t.locate true source = .ok (q ++ [name], some (.file bytes x))) :
    ∃ e, t.copy source (Path.join base name) = .error e := by
  have hno := node?_of_locate hs
  have hp : t.Writable (q ++ [name]) := by
    intro n hn
    rw [hno] at hn
    exact ⟨bytes, x, (Option.some.inj hn).symm⟩
  have hsa : t.same source (Path.join base name) := by
    rw [same, hs, ht.locate_into hbase hname hp, hno]
    simp
  rw [copy_eq, ht.copyPath_into hbase hname hp, hsa, if_pos rfl]
  exact ⟨_, rfl⟩

theorem Sound.makeDirectories_join : t.makeDirectories (Path.join base name) = alsoMake (Path.join base name) t := by
  have hne := (reached_of_locate hbase).1
  have hnil := hname.1
  have hs := hname.2.1
  obtain ⟨front, hj, hn⟩ := Path.exists_join hne hs
  obtain ⟨hpa, hp⟩ := @Path.isAbsolute_parent name front hs
  rw [← hj] at hpa hp
  have hparent : t.has (Path.parent (Path.join base name)) := by
    have ha : Path.isAbsolute (Path.parent (Path.join base name)) = Path.isAbsolute base := by
      rw [hp, Path.isAbsolute_join hne hs]
    have hparentNames : Path.names (Path.parent (Path.join base name)) = Path.names base := by
      rw [hj, Path.names_parent hs, hn]
    have hd := (ht.locate_directory_congr hne hpa ha hparentNames).2 hbase
    rw [has, stat, hd]
    rfl
  obtain ⟨height, hh⟩ := Nat.exists_eq_succ_of_ne_zero
    (mt List.length_eq_zero_iff.1 (Path.join_ne_nil base hnil hs))
  rw [makeDirectories, hh, makeDirectoriesGo, Path.baseName_join hs]
  have he : name.isEmpty = false := by simpa using hnil
  rw [he, if_neg Bool.false_ne_true, hparent, Bool.or_true, if_pos rfl]

theorem Sound.makeDirectories_into (hp : t.node? (q ++ [name]) = none) :
    t.makeDirectories (Path.join base name) = (t.put (q ++ [name]) .directory, none) := by
  have hm : t.makeDirectory (Path.join base name) = .ok (t.put (q ++ [name]) .directory) := by
    rw [makeDirectory, Path.withoutSlash_join hname, ht.locate_join hbase hname (.inl rfl), hp]
  rw [ht.makeDirectories_join hbase hname, alsoMake, hm]

theorem Sound.makeDirectories_there {n : Node} (hp : t.node? (q ++ [name]) = some n) :
    (t.makeDirectories (Path.join base name)).2 ≠ none := by
  have hm : t.makeDirectory (Path.join base name) = .error ⟨.alreadyThere, Path.join base name⟩ := by
    rw [makeDirectory, Path.withoutSlash_join hname, ht.locate_join hbase hname (.inl rfl), hp]
  rw [ht.makeDirectories_join hbase hname, alsoMake, hm]
  simp

end Into

end FileTree

end QtMigration
