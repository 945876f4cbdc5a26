import QtMigration.Proofs.CommandLine.Job
import QtMigration.Proofs.FileTree.Placing

/-!
# Proofs/CommandLine/Listed — the copies of the files of a list

The files of a list are copied into one directory under their own names, wherever they come from.
-/

namespace QtMigration

open List

namespace Job

open FileTree (Sound Grows Writable)

/-- **Every file has a copy of its own**: one entry in the table of copies, which leads to a place of
its own with the bytes of the file. -/
structure OwnCopies (t : FileTree) (files : List Text) (s : Session) : Prop where
  sources : s.copies.map Prod.snd = files.reverse
  nodup : (s.copies.map Prod.fst).Nodup
  apart : ∀ c ∈ s.copies, ∀ d ∈ s.copies, s.tree.same c.1 d.1 = true → c = d
  content : ∀ c ∈ s.copies, s.tree.hasFile c.1 = true ∧ s.tree.read c.1 = t.read c.2

def copyEntry (dest f : Text) : Text × Text := (Path.join dest (Path.baseName f), f)

def copyOne (dest f : Text) : Job Unit := do
  if (← tree).hasFile f then copyFile f (copyEntry dest f).1 (copyEntry dest f).1
  else print ("File `" ++ f ++ "` not found, ignored\n")

theorem copyListed_eq (dest : Text) (files : List Text) : copyListed dest files = tree >>= fun t =>
    if !t.has dest then makeDestination dest >>= fun _ => files.forM (copyOne dest)
    else files.forM (copyOne dest) := rfl

section Loop

variable {t : FileTree} {q : Location} {dest : Text} {s : Session}

/-- A tree in which files were put into the directory at `q`, and which is else as `t`. -/
structure Filled (t : FileTree) (q : Location) (u : FileTree) : Prop where
  sound : u.Sound
  grows : Grows t u
  elsewhere : ∀ p, (∀ name, p ≠ q ++ [name]) → u.node? p = t.node? p
  writable : ∀ name, u.Writable (q ++ [name])

theorem Filled.put {u : FileTree} (h : Filled t q u) (hdest : u.locate true dest = .ok (q, some .directory))
    {name : Text} (hna : Path.IsName name) (bytes : Bytes) (x : Bool) :
    Filled t q (u.put (q ++ [name]) (.file bytes x)) where
  sound := h.sound.put_into hdest hna (h.writable name).not_directory _
  grows := h.grows.trans ((h.writable name).grows bytes x)
  elsewhere p hp := by rw [FileTree.node?_put_of_ne (by simp) (hp name), h.elsewhere p hp]
  writable other n hn := by
    by_cases heq : other = name
    · rw [heq, FileTree.node?_put_self (by simp)] at hn
      exact ⟨bytes, x, (Option.some.inj hn).symm⟩
    · rw [FileTree.node?_put_of_ne (by simp) (by simpa using heq)] at hn
      exact h.writable other n hn

variable (hdest : t.locate true dest = .ok (q, some .directory))
  (hempty : ∀ name, t.node? (q ++ [name]) = none)
include hdest hempty

theorem exec_copyOne {f : Text} (hf : t.hasFile f) (hs : Filled t q s.tree) :
    ∃ bytes x, t.stat f = .ok (.file bytes x) ∧ Path.IsName (Path.baseName f) ∧
      exec (copyOne dest f) s = (.ok (), { s with
        tree := s.tree.put (q ++ [Path.baseName f]) (.file bytes x)
        copies := copyEntry dest f :: s.copies }) := by
  obtain ⟨r, bytes, x, hr⟩ := FileTree.locate_of_hasFile hf
  have hn := FileTree.node?_of_locate hr
  have hne : ∀ name, r ≠ q ++ [name] := by
    rintro name rfl
    rw [hempty name] at hn
    cases hn
  have hso := hs.grows.locate hr
  rw [hs.elsewhere r hne, hn] at hso
  have hd := hs.grows.locate hdest
  rw [hs.grows.directory (FileTree.node?_of_locate hdest)] at hd
  have hna := hs.sound.isName_baseName hso (by simp)
  refine ⟨bytes, x, by rw [FileTree.stat, hr], hna, ?_⟩
  have ht : s.tree.hasFile f := by rw [FileTree.hasFile, FileTree.stat, hso]
  rw [copyOne, exec_bind_ok (exec_tree s), if_pos ht, exec_copyFile, copyEntry,
    hs.sound.copy_into hd hna (hs.writable _) hso (hne _)]

/-- **All files are copied**: the table has an entry for each of them, and the copies that no other copy
took the place of have their content. -/
theorem exec_copyAll : ∀ (files : List Text) (s : Session), (∀ f ∈ files, t.hasFile f) →
    Filled t q s.tree → ∃ s', exec (files.forM (copyOne dest)) s = (.ok (), s') ∧ Filled t q s'.tree ∧
      s'.copies = (files.map (copyEntry dest)).reverse ++ s.copies ∧
      (∀ name, name ∉ files.map Path.baseName → s'.tree.node? (q ++ [name]) = s.tree.node? (q ++ [name])) ∧
      ((files.map Path.baseName).Nodup → ∀ f ∈ files, s'.tree.node? (q ++ [Path.baseName f]) = (t.stat f).toOption)
  | [], s, _, hs => ⟨s, rfl, hs, rfl, fun _ _ => rfl, fun _ _ hf => by cases hf⟩
  | f :: files, s, ha, hs => by
    obtain ⟨hf, hfi⟩ := forall_mem_cons.1 ha
    obtain ⟨bytes, x, hst, hna, he⟩ := exec_copyOne hdest hempty hf hs
    have hd := hs.grows.locate hdest
    rw [hs.grows.directory (FileTree.node?_of_locate hdest)] at hd
    obtain ⟨s', he', hs', hco, ho, hc⟩ :=
      exec_copyAll files { s with
        tree := s.tree.put (q ++ [Path.baseName f]) (.file bytes x)
        copies := copyEntry dest f :: s.copies } hfi (hs.put hd hna bytes x)
    refine ⟨s', (exec_bind_ok he).trans he', hs', ?_, fun name hnot => ?_, fun hn g hg => ?_⟩
    · rw [hco, map_cons, reverse_cons, append_assoc, singleton_append]
    · rw [map_cons, mem_cons, not_or] at hnot
      rw [ho name hnot.2, FileTree.node?_put_of_ne (by simp) (by simpa using hnot.1)]
    · rw [map_cons, nodup_cons] at hn
      rcases mem_cons.1 hg with rfl | hg
      · rw [ho _ hn.1, FileTree.node?_put_self (by simp), hst]
        rfl
      · exact hc hn.2 g hg

end Loop

theorem nodup_copyEntry {dest : Text} {files : List Text} :
    ((files.map (copyEntry dest)).map Prod.fst).Nodup ↔ (files.map Path.baseName).Nodup := by
  have hk : (files.map (copyEntry dest)).map Prod.fst = (files.map Path.baseName).map (Path.join dest) := by
    rw [map_map, map_map]
    rfl
  rw [hk]
  refine ⟨List.Nodup.of_map _, fun h => h.map_on ?_⟩
  intro a ha b hb hab
  obtain ⟨f, -, rfl⟩ := mem_map.1 ha
  obtain ⟨g, -, rfl⟩ := mem_map.1 hb
  rw [Path.join_eq_append (Path.slash_notMem_baseName f), Path.join_eq_append (Path.slash_notMem_baseName g)] at hab
  exact append_cancel_left hab

theorem ownCopies_of_nodup {t t₁ : FileTree} {q : Location} {dest : Text} {files : List Text} {s : Session}
    (ht₁ : t₁.Sound) (hdest : t₁.locate true dest = .ok (q, some .directory))
    (hs : Filled t₁ q s.tree) (hfi : ∀ f ∈ files, t₁.hasFile f ∧ t₁.read f = t.read f)
    (hco : s.copies = (files.map (copyEntry dest)).reverse)
    (hcontent : ∀ f ∈ files, s.tree.node? (q ++ [Path.baseName f]) = (t₁.stat f).toOption)
    (hn : (files.map Path.baseName).Nodup) : OwnCopies t files s := by
  have hdir := hs.grows.locate hdest
  rw [hs.grows.directory (FileTree.node?_of_locate hdest)] at hdir
  have hm : ∀ c ∈ s.copies, ∃ f ∈ files, c = copyEntry dest f ∧ ∃ bytes x, t₁.stat f = .ok (.file bytes x) ∧
      s.tree.locate true c.1 = .ok (q ++ [Path.baseName f], some (.file bytes x)) := by
    intro c hc
    rw [hco, mem_reverse] at hc
    obtain ⟨f, hf, rfl⟩ := mem_map.1 hc
    obtain ⟨r, bytes, x, hr⟩ := FileTree.locate_of_hasFile (hfi f hf).1
    have hst : t₁.stat f = .ok (.file bytes x) := by rw [FileTree.stat, hr]
    refine ⟨f, hf, rfl, bytes, x, hst, ?_⟩
    rw [copyEntry, hs.sound.locate_into hdir (ht₁.isName_baseName hr (by simp)) (hs.writable _), hcontent f hf, hst]
    rfl
  refine ⟨?_, ?_, fun c hc d hd hsa => ?_, fun c hc => ?_⟩
  · rw [hco, map_reverse, map_map]
    exact congrArg List.reverse (map_id files)
  · rw [hco, map_reverse, nodup_reverse]
    exact nodup_copyEntry.2 hn
  · obtain ⟨f, hf, rfl, _, _, -, hfp⟩ := hm c hc
    obtain ⟨g, hg, rfl, _, _, -, hgp⟩ := hm d hd
    rw [FileTree.same, hfp, hgp] at hsa
    have hna : Path.baseName f = Path.baseName g := by simpa using hsa
    rw [inj_on_of_nodup_map hn hf hg hna]
  · obtain ⟨f, hf, rfl, bytes, x, hst, hp⟩ := hm c hc
    change _ ∧ _ = t.read f
    rw [← (hfi f hf).2, FileTree.hasFile, FileTree.read, FileTree.read, FileTree.stat, hp, hst]
    exact ⟨rfl, rfl⟩

end Job

open Job in
/-- **Every listed file has a copy of its own exactly if no two of them have the same name.** -/
theorem own_copies_iff {t t₁ : FileTree} {list dest printed : Text} {bytes : Bytes} {listing : Listing}
    (ht : t.Sound) (hread : t.read list = .ok bytes) (hlisting : Listing.ofBytes bytes = .ok listing)
    (hfiles : ∀ f ∈ listing.files, t.hasFile f = true)
    (hnew : t.has dest = false) (hmade : t.makeDirectories dest = (t₁, none))
    (hempty : t₁.namesAt dest = some []) :
    ∃ s, exec (readListing list >>= fun l => copyListed dest l.files) ⟨t, printed, []⟩ = (.ok (), s) ∧
      (OwnCopies t listing.files s ↔ (listing.files.map Path.baseName).Nodup) := by
  -- Making the directory writes no file.
  have hsteps : FileTree.Steps (fun _ => False) t t₁ := by
    have := FileTree.makeDirectories_steps (W := fun _ => False) t dest
    rwa [hmade] at this
  have ht₁ := hsteps.sound ht
  have hkept : ∀ f ∈ listing.files, t₁.hasFile f = true ∧ t₁.read f = t.read f := fun f hf =>
    ⟨hsteps.touches.grows.hasFile (hfiles f hf), hsteps.touches.read_eq (hfiles f hf) fun _ h => h.elim⟩
  obtain ⟨q, hdest, hnames⟩ := FileTree.exists_place_of_namesAt hempty
  have hvacant : ∀ name, t₁.node? (q ++ [name]) = none := fun name =>
    ht₁.vacant_of_empty hnames.symm (List.cons_ne_nil name [])
  have hfilled : Filled t₁ q t₁ := by
    refine ⟨ht₁, .refl t₁, fun _ _ => rfl, fun name n hn => ?_⟩
    rw [hvacant name] at hn
    cases hn
  obtain ⟨s, hexec, hs, hcopies, -, hcontent⟩ := exec_copyAll hdest hvacant listing.files
    ⟨t₁, printed, []⟩ (fun f hf => (hkept f hf).1) hfilled
  rw [List.append_nil] at hcopies
  refine ⟨s, ?_, fun hown => ?_, fun hnodup => ?_⟩
  · have hlist : exec (readListing list) ⟨t, printed, []⟩ = (.ok listing, ⟨t, printed, []⟩) := by
      rw [readListing, exec_bind_ok (exec_tree _), hread]
      change exec (ofExcept (Listing.ofBytes bytes)) _ = _
      rw [hlisting]
      rfl
    rw [exec_bind_ok hlist, copyListed_eq, exec_bind_ok (exec_tree _), hnew, Bool.not_false, if_pos rfl,
      exec_bind_ok (exec_makeDestination hmade _ _)]
    exact hexec
  · have hnodup := hown.nodup
    rw [hcopies, List.map_reverse, List.nodup_reverse] at hnodup
    exact nodup_copyEntry.1 hnodup
  · exact ownCopies_of_nodup ht₁ hdest hs hkept hcopies (hcontent hnodup) hnodup

/-- A list with the rows `a/x` and `b/y`, and one with the rows `a/x` and `b/x`. -/
def twoLists : FileTree where
  entries := [([['l']], .file [97, 47, 120, 10, 98, 47, 121, 10] false),
    ([['m']], .file [97, 47, 120, 10, 98, 47, 120, 10] false), ([['a']], .directory),
    ([['a'], ['x']], .file [49] true), ([['b']], .directory), ([['b'], ['x']], .file [50] false),
    ([['b'], ['y']], .file [51] false)]
  here := []

open Job in
theorem own_copies_iff_twoLists : ∃ s, exec (readListing ['l'] >>= fun l => copyListed ['d'] l.files)
    ⟨twoLists, [], []⟩ = (.ok (), s) ∧ OwnCopies twoLists [['a', '/', 'x'], ['b', '/', 'y']] s := by
  obtain ⟨s, hexec, hown⟩ := @own_copies_iff twoLists (twoLists.put [['d']] .directory) ['l'] ['d'] []
    [97, 47, 120, 10, 98, 47, 121, 10] ⟨[['a', '/', 'x'], ['b', '/', 'y']], [['a'], ['b']]⟩ (by decide)
    (by decide) (by decide) (by decide) (by decide) (by decide) (by decide)
  exact ⟨s, hexec, hown.2 (by decide)⟩

open Job in
/-- Of two listed files of one name, only the last one is left: the copy of the first is lost, and the
run goes on. -/
theorem first_copy_lost : ∃ s, exec (readListing ['m'] >>= fun l => copyListed ['d'] l.files)
    ⟨twoLists, [], []⟩ = (.ok (), s) ∧
    s.copies = [(['d', '/', 'x'], ['b', '/', 'x']), (['d', '/', 'x'], ['a', '/', 'x'])] ∧
    s.tree.names [['d']] = [['x']] ∧ s.tree.read ['d', '/', 'x'] = twoLists.read ['b', '/', 'x'] ∧
    s.tree.read ['d', '/', 'x'] ≠ twoLists.read ['a', '/', 'x'] := by
  refine ⟨⟨(twoLists.put [['d']] .directory).put [['d'], ['x']] (.file [50] false), [],
    [(['d', '/', 'x'], ['b', '/', 'x']), (['d', '/', 'x'], ['a', '/', 'x'])]⟩, ?_, ?_⟩
  · rfl
  · decide

end QtMigration
