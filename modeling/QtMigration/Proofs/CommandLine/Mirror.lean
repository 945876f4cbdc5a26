import QtMigration.Proofs.CommandLine.Job
import QtMigration.Proofs.FileTree.Placing

/-!
# Proofs/CommandLine/Mirror — the copy of a directory

A directory is copied by a walk. At each directory it visits, the walk makes the directories that are in it
and copies the sources; then it goes on below.
-/

namespace QtMigration

open List

variable {n : Node} {name path : Text}

def Unskipped (rel : Location) : Prop := ∀ name ∈ rel, name ∉ Job.skippedDirectories

instance : DecidablePred Unskipped := fun rel =>
  inferInstanceAs (Decidable (∀ name ∈ rel, name ∉ Job.skippedDirectories))

/-- **What stands in the copy of a directory** behind the names `rel`: its directories and its sources,
without those below directories that are not copied. -/
def FileTree.mirror (t : FileTree) (source : Text) (root rel : Location) : Option Node :=
  match t.node? (root ++ rel) with
  | some .directory => if Unskipped rel then some .directory else none
  | some (.file bytes x) =>
    if Unskipped rel.dropLast ∧ isSource t (Path.extend source rel) = .ok true then some (.file bytes x)
    else none
  | _ => none

theorem FileTree.mirror_eq_directory_iff {t : FileTree} {source : Text} {root rel : Location} :
    t.mirror source root rel = some .directory ↔
      t.node? (root ++ rel) = some .directory ∧ Unskipped rel := by
  rw [mirror]
  cases t.node? (root ++ rel) with
  | none => simp
  | some n => cases n <;> simp

theorem FileTree.Sound.mirror_below {t : FileTree} (ht : t.Sound) {source : Text} {root rel below : Location}
    (h : t.mirror source root rel ≠ some .directory) (hb : below ≠ []) :
    t.mirror source root (rel ++ below) = none := by
  have hs : ∀ {n}, t.node? (root ++ (rel ++ below)) = some n → ¬ Unskipped rel := by
    intro n hn ha
    rw [← append_assoc] at hn
    exact h (mirror_eq_directory_iff.2 ⟨ht.above hb hn, ha⟩)
  rw [mirror]
  cases hn : t.node? (root ++ (rel ++ below)) with
  | none => rfl
  | some n =>
    cases n with
    | directory => exact if_neg fun ha => hs hn fun name hmem => ha name (mem_append_left _ hmem)
    | file bytes x =>
      refine if_neg fun ha => hs hn fun name hmem => ha.1 name ?_
      rw [dropLast_append_of_ne_nil hb]
      exact mem_append_left _ hmem
    | _ => rfl

namespace Job

open FileTree (Sound Grows Writable)

/-! ## Jobs that work apart from each other -/

/-- The job ends, keeps `P`, and changes nothing but its region, where it leaves what is to be `after`. -/
abbrev Fills (P : FileTree → Prop) (region : Location → Prop) (after : Location → Option Node) (job : Job Unit)
    (s : Session) : Prop :=
  ∃ s', exec job s = (.ok (), s') ∧ P s'.tree ∧ (∀ p, region p → s'.tree.node? p = after p) ∧
    ∀ p, ¬ region p → s'.tree.node? p = s.tree.node? p

theorem exec_forM_apart {P : FileTree → Prop} {region : Text → Location → Prop}
    {after : Location → Option Node} {f : Text → Job Unit}
    (hap : ∀ a b p, region a p → region b p → a = b) : ∀ (names : List Text) (s : Session),
    names.Nodup → (∀ name ∈ names, ∀ s : Session, P s.tree → (∀ p, region name p → s.tree.node? p = none) →
      Fills P (region name) after (f name) s) →
    P s.tree → (∀ name ∈ names, ∀ p, region name p → s.tree.node? p = none) →
    ∃ s', exec (names.forM f) s = (.ok (), s') ∧ P s'.tree ∧
      (∀ name ∈ names, ∀ p, region name p → s'.tree.node? p = after p) ∧
      ∀ p, (∀ name ∈ names, ¬ region name p) → s'.tree.node? p = s.tree.node? p
  | [], s, _, _, hs, _ => ⟨s, rfl, hs, by simp, fun _ _ => rfl⟩
  | name :: names, s, hn, hbody, hs, hvacant => by
    obtain ⟨hnew, hn⟩ := nodup_cons.1 hn
    obtain ⟨hva, hv⟩ := forall_mem_cons.1 hvacant
    obtain ⟨hbo, hb⟩ := forall_mem_cons.1 hbody
    obtain ⟨s₁, he₁, hs₁, ha₁, ho₁⟩ := hbo s hs hva
    have hd : ∀ other ∈ names, ∀ p, region other p → ¬ region name p := by
      intro other hot p hp hna
      exact hnew (hap name other p hna hp ▸ hot)
    obtain ⟨s₂, he₂, hs₂, ha₂, ho₂⟩ := exec_forM_apart hap names s₁ hn hb hs₁
      fun other hot p hp => (ho₁ p (hd other hot p hp)).trans (hv other hot p hp)
    refine ⟨s₂, (exec_bind_ok he₁).trans he₂, hs₂, ?_, fun p hp => ?_⟩
    · refine forall_mem_cons.2 ⟨fun p hp => ?_, ha₂⟩
      rw [ho₂ p fun other hot h => hd other hot p h hp, ha₁ p hp]
    · obtain ⟨hna, hnames⟩ := forall_mem_cons.1 hp
      rw [ho₂ p hnames, ho₁ p hna]

/-! ## Where the walk is, and where it writes -/

/-- A directory at `root` that is copied to the empty directory at `q`. -/
structure Mirroring (t : FileTree) (source dest : Text) (root q : Location) : Prop where
  sound : t.Sound
  source_at : t.locate true source = .ok (root, some .directory)
  no_links : ∀ rel target, t.node? (root ++ rel) ≠ some (.link target)
  dest_at : t.locate true dest = .ok (q, some .directory)
  apart : ∀ rel, ¬ q <+: root ++ rel
  slash : source.endsWith ['/'] = true → dest.endsWith ['/'] = true
  once : ∀ rel, t.node? (root ++ rel) = some .directory → Unskipped rel →
    (Path.behind source rel).has source = false

/-- A tree to which copies were added below `q`. -/
structure Copying (t : FileTree) (q : Location) (u : FileTree) : Prop where
  sound : u.Sound
  grows : Grows t u
  outside : ∀ p, ¬ q <+: p → u.node? p = t.node? p

variable {t u : FileTree} {source dest : Text} {root q rel : Location} {s : Session}

theorem Copying.put (h : Copying t q u)
    (hpa : u.locate true path = .ok (q ++ rel, some .directory)) (hn : Path.IsName name)
    (hv : u.node? (q ++ rel ++ [name]) = none) (n : Node) :
    Copying t q (u.put (q ++ rel ++ [name]) n) where
  sound := h.sound.put_into hpa hn (by rw [hv]; simp) n
  grows := h.grows.trans (.put_new hv n)
  outside p hp := by
    have hne : p ≠ q ++ rel ++ [name] := by
      rintro rfl
      rw [append_assoc] at hp
      exact hp (prefix_append ..)
    rw [FileTree.node?_put_of_ne (by simp) hne, h.outside p hp]

namespace Mirroring

variable (hm : Mirroring t source dest root q) (hu : Copying t q u)
include hm hu

theorem node?_source (rel : Location) : u.node? (root ++ rel) = t.node? (root ++ rel) :=
  hu.outside _ (hm.apart rel)

variable (hr : t.node? (root ++ rel) = some .directory)
include hr

theorem locate_source :
    u.locate true (Path.extend source rel) = .ok (root ++ rel, some .directory) := by
  have hs := hu.grows.locate hm.source_at
  rw [hu.grows.directory (FileTree.node?_of_locate hm.source_at)] at hs
  exact hu.sound.locate_extend hs (by rw [hm.node?_source hu, hr])

theorem locate_child (hn : t.node? (root ++ (rel ++ [name])) = some n) (follow : Bool) :
    u.locate follow (Path.join (Path.extend source rel) name) =
      .ok (root ++ (rel ++ [name]), some n) := by
  have hs := hm.node?_source hu (rel ++ [name])
  rw [hn, ← append_assoc] at hs
  have hl : ∀ target, u.node? (root ++ rel ++ [name]) ≠ some (.link target) := by
    intro target hl
    rw [hs] at hl
    exact hm.no_links (rel ++ [name]) target (hn.trans hl)
  rw [hu.sound.locate_join (hm.locate_source hu hr) (hu.sound.parent hs).1 (.inr hl), hs, append_assoc]

theorem locate_copy (hk : Unskipped rel) (hp : u.node? (q ++ rel) = some .directory) :
    u.locate true (Text.replaceAll (Path.extend source rel) source dest) =
      .ok (q ++ rel, some .directory) := by
  have hn : ∀ n ∈ rel, Path.IsName n := hm.sound.isName hr
  have hs := (FileTree.reached_of_locate hm.source_at).1
  have hd := (FileTree.reached_of_locate hm.dest_at).1
  have hc : Text.replaceAll (Path.extend source rel) source dest = dest ++ Path.behind source rel := by
    rw [Path.extend_eq_append hn, Text.replaceAll_self_append hs,
      Text.replaceAll_of_not_has (hm.once rel hr hk)]
  have hat := hu.grows.locate hm.dest_at
  rw [hu.grows.directory (FileTree.node?_of_locate hm.dest_at)] at hat
  rw [hc]
  refine (hu.sound.locate_directory_congr ?_ (by simp [hd]) ?_ ?_).2 (hu.sound.locate_extend hat hp)
  · rw [Path.extend_eq_append hn]
    simp [hd]
  · rw [Path.isAbsolute_append hd, Path.isAbsolute_extend hn hd]
  · rw [Path.names_append_behind hn hs hm.slash, Path.names_extend hn hd]

end Mirroring

/-! ## One visit -/

/-- Make the directory for the copies of what is in the directory `d`. -/
def makeOne (copyPath d : Text) : Job Unit := do
  match ← makeDirectories (Path.join copyPath d) with
  | none => return ()
  | some f => fail (.file f)

def copySource (path copyPath f : Text) : Job Unit := do
  match isSource (← tree) (Path.join path f) with
  | .error e => fail (.file e)
  | .ok false => return ()
  | .ok true => copyFile (Path.join path f) (Path.join copyPath f) (Path.join copyPath f)

theorem copyVisit_eq (source dest path : Text) (directories files : List Text) :
    copyVisit source dest path directories files = (directories.filter fun d => !skippedDirectories.contains d).forM
        (makeOne (Text.replaceAll path source dest)) >>= fun _ =>
      files.forM (copySource path (Text.replaceAll path source dest)) >>= fun _ =>
      pure (directories.filter fun d => !skippedDirectories.contains d) := rfl

theorem isSource_congr (h : u.stat path = t.stat path) : isSource u path = isSource t path := by
  rw [isSource, isSource, h]

/-- What the walk keeps at one directory: its copy is there. -/
structure Visiting (t : FileTree) (q rel : Location) (u : FileTree) : Prop where
  copying : Copying t q u
  place : u.node? (q ++ rel) = some .directory

/-- With it stand those of the directories `kept` in it. -/
structure Standing (t : FileTree) (q rel : Location) (kept : List Text) (u : FileTree) : Prop where
  visiting : Visiting t q rel u
  below : ∀ d ∈ kept, u.node? (q ++ rel ++ [d]) = some .directory

theorem Visiting.put (h : Visiting t q rel u)
    (hp : u.locate true path = .ok (q ++ rel, some .directory)) (hn : Path.IsName name)
    (hv : u.node? (q ++ rel ++ [name]) = none) (n : Node) :
    Visiting t q rel (u.put (q ++ rel ++ [name]) n) where
  copying := h.copying.put hp hn hv n
  place := by rw [FileTree.node?_put_of_ne (by simp) (by simp), h.place]

def placeIn (q rel : Location) (name : Text) (p : Location) : Prop := p = q ++ rel ++ [name]

theorem placeIn_apart (q rel : Location) (a b : Text) (p : Location) (ha : placeIn q rel a p)
    (hb : placeIn q rel b p) : a = b := by
  rw [placeIn] at ha hb
  rw [ha] at hb
  simpa using hb

def belowIn (q rel : Location) (name : Text) (p : Location) : Prop :=
  ∃ r, r ≠ [] ∧ p = q ++ rel ++ [name] ++ r

theorem belowIn_apart (q rel : Location) (a b : Text) (p : Location) (ha : belowIn q rel a p)
    (hb : belowIn q rel b p) : a = b := by
  obtain ⟨r, -, rfl⟩ := ha
  obtain ⟨r', -, h⟩ := hb
  rw [append_assoc _ [a], append_assoc _ [b]] at h
  exact (cons.inj (append_cancel_left h)).1

theorem not_belowIn (q rel : Location) (name other : Text) : ¬ belowIn q rel name (q ++ rel ++ [other]) := by
  rintro ⟨r, hr, h⟩
  rw [append_assoc _ [name]] at h
  have := (cons.inj (append_cancel_left h)).2
  exact hr this.symm

/-- The names of the directories in the directory at `p`, to which `path` leads. -/
def directoriesAt (u : FileTree) (path : Text) (p : Location) : List Text :=
  (u.names p).filter fun name => u.hasDirectory (Path.join path name)

def filesAt (u : FileTree) (path : Text) (p : Location) : List Text :=
  (u.names p).filter fun name => !u.hasDirectory (Path.join path name)

def imageAt (t : FileTree) (source : Text) (root q p : Location) : Option Node :=
  t.mirror source root (p.drop q.length)

theorem imageAt_append (t : FileTree) (source : Text) (root q rel : Location) :
    imageAt t source root q (q ++ rel) = t.mirror source root rel := by
  rw [imageAt, drop_left]

namespace Mirroring

variable (hm : Mirroring t source dest root q) (hr : t.node? (root ++ rel) = some .directory) (hk : Unskipped rel)
include hm hr

theorem names_source (hs : Copying t q s.tree) :
    s.tree.namesAt (Path.extend source rel) = some (s.tree.names (root ++ rel)) ∧
      ∀ name, name ∈ s.tree.names (root ++ rel) ↔ ∃ n, t.node? (root ++ (rel ++ [name])) = some n := by
  refine ⟨by rw [FileTree.namesAt, hm.locate_source hs hr], fun name => ?_⟩
  rw [FileTree.mem_names, append_assoc, hm.node?_source hs]

theorem hasDirectory_child (hs : Copying t q s.tree)
    (hn : t.node? (root ++ (rel ++ [name])) = some n) :
    s.tree.hasDirectory (Path.join (Path.extend source rel) name) ↔ n = .directory := by
  rw [FileTree.hasDirectory, FileTree.stat, hm.locate_child hs hr hn true]
  cases n <;> simp [Except.toOption]

include hk

theorem exec_makeOne {d : Text} (hd : t.node? (root ++ (rel ++ [d])) = some .directory) (hsk : d ∉ skippedDirectories)
    (hs : Visiting t q rel s.tree) (hv : ∀ p, placeIn q rel d p → s.tree.node? p = none) :
    Fills (Visiting t q rel) (placeIn q rel d) (imageAt t source root q)
      (makeOne (Text.replaceAll (Path.extend source rel) source dest) d) s := by
  have hpa := hm.locate_copy hs.copying hr hk hs.place
  have hn : Path.IsName d := hm.sound.isName hd d (by simp)
  have hma := hs.copying.sound.makeDirectories_into hpa hn (hv _ rfl)
  refine ⟨{ s with tree := s.tree.put (q ++ rel ++ [d]) .directory }, ?_,
    hs.put hpa hn (hv _ rfl) _, ?_, fun p hp => FileTree.node?_put_of_ne (by simp) hp⟩
  · rw [makeOne, exec_bind_ok (exec_makeDirectories _ s), hma]
    rfl
  · rintro p rfl
    have ha : Unskipped (rel ++ [d]) := by
      intro name hmem
      rcases mem_append.1 hmem with hmem | hmem
      · exact hk name hmem
      · rwa [mem_singleton.1 hmem]
    rw [FileTree.node?_put_self (by simp), append_assoc, imageAt_append, FileTree.mirror, hd]
    exact (if_pos ha).symm

theorem exec_copySource {f : Text} (hf : t.node? (root ++ (rel ++ [f])) = some n) (hn : n ≠ .directory)
    (hs : Visiting t q rel s.tree) (hv : ∀ p, placeIn q rel f p → s.tree.node? p = none) :
    Fills (Visiting t q rel) (placeIn q rel f) (imageAt t source root q)
      (copySource (Path.extend source rel) (Text.replaceAll (Path.extend source rel) source dest) f) s := by
  have hse : Copying t q t := ⟨hm.sound, .refl t, fun _ _ => rfl⟩
  have hpa := hm.locate_copy hs.copying hr hk hs.place
  have hna : Path.IsName f := hm.sound.isName hf f (by simp)
  have hfi := hm.locate_child hs.copying hr hf true
  have hst : s.tree.stat (Path.join (Path.extend source rel) f) =
      t.stat (Path.join (Path.extend source rel) f) := by
    rw [FileTree.stat, FileTree.stat, hfi, hm.locate_child hse hr hf true]
  have hso := isSource_congr hst
  have hi : imageAt t source root q (q ++ rel ++ [f]) = t.mirror source root (rel ++ [f]) := by
    rw [append_assoc, imageAt_append]
  -- Nothing is done if the file is no source, and nothing is to be there then.
  have hsk : isSource t (Path.join (Path.extend source rel) f) = .ok false →
      t.mirror source root (rel ++ [f]) = none →
      Fills (Visiting t q rel) (placeIn q rel f) (imageAt t source root q)
        (copySource (Path.extend source rel) (Text.replaceAll (Path.extend source rel) source dest) f) s := by
    intro hno hnone
    refine ⟨s, ?_, hs, ?_, fun _ _ => rfl⟩
    · rw [copySource, exec_bind_ok (exec_tree s), hso, hno]
      rfl
    · rintro p rfl
      rw [hv _ rfl, hi, hnone]
  cases n with
  | directory => exact absurd rfl hn
  | link target => exact absurd hf (hm.no_links _ target)
  | device =>
    refine hsk ?_ (by rw [FileTree.mirror, hf])
    rw [isSource, FileTree.stat, hm.locate_child hse hr hf true]
  | file bytes x =>
    cases hb : isSource t (Path.join (Path.extend source rel) f) with
    | error e =>
      rw [isSource, FileTree.stat, hm.locate_child hse hr hf true] at hb
      cases hb
    | ok b =>
      have hmi : t.mirror source root (rel ++ [f]) =
          if b = true then some (.file bytes x) else none := by
        rw [FileTree.mirror, hf, dropLast_concat, Path.extend_concat, hb]
        cases b <;> simp [hk]
      cases b with
      | false => exact hsk hb hmi
      | true =>
        have hw : s.tree.Writable (q ++ rel ++ [f]) := by
          intro n hn
          rw [hv _ rfl] at hn
          cases hn
        have hne : root ++ (rel ++ [f]) ≠ q ++ rel ++ [f] := by
          intro heq
          refine hm.apart (rel ++ [f]) ?_
          rw [heq, append_assoc]
          exact prefix_append ..
        have hc := hs.copying.sound.copy_into hpa hna hw hfi hne
        refine ⟨{ s with
          tree := s.tree.put (q ++ rel ++ [f]) (.file bytes x)
          copies := (Path.join (Text.replaceAll (Path.extend source rel) source dest) f,
            Path.join (Path.extend source rel) f) :: s.copies }, ?_,
          hs.put hpa hna (hv _ rfl) _, ?_, fun p hp => FileTree.node?_put_of_ne (by simp) hp⟩
        · rw [copySource, exec_bind_ok (exec_tree s), hso, hb]
          change exec (copyFile _ _ _) s = _
          rw [exec_copyFile, hc]
        · rintro p rfl
          rw [FileTree.node?_put_self (by simp), hi, hmi]
          rfl

theorem exec_visit (hs : Visiting t q rel s.tree) (hva : ∀ name, s.tree.node? (q ++ rel ++ [name]) = none)
    {directories files : List Text} (hno : directories.Nodup) (hno' : files.Nodup)
    (hd : ∀ d ∈ directories, t.node? (root ++ (rel ++ [d])) = some .directory)
    (hf : ∀ f ∈ files, ∃ n, t.node? (root ++ (rel ++ [f])) = some n ∧ n ≠ .directory) :
    ∃ s', exec (copyVisit source dest (Path.extend source rel) directories files) s =
        (.ok (directories.filter fun d => !skippedDirectories.contains d), s') ∧
      Visiting t q rel s'.tree ∧
      (∀ name, name ∈ directories.filter (fun d => !skippedDirectories.contains d) ∨ name ∈ files →
        s'.tree.node? (q ++ rel ++ [name]) = t.mirror source root (rel ++ [name])) ∧
      ∀ p, (∀ name, name ∈ directories.filter (fun d => !skippedDirectories.contains d) ∨ name ∈ files →
        p ≠ q ++ rel ++ [name]) → s'.tree.node? p = s.tree.node? p := by
  have hi : ∀ name, imageAt t source root q (q ++ rel ++ [name]) = t.mirror source root (rel ++ [name]) := by
    intro name
    rw [append_assoc, imageAt_append]
  obtain ⟨s₁, he₁, hs₁, ha₁, ho₁⟩ := exec_forM_apart (placeIn_apart q rel)
    (directories.filter fun d => !skippedDirectories.contains d) s (hno.filter _) (fun d hmem s hs hv => by
      obtain ⟨hdir, hsk⟩ := mem_filter.1 hmem
      exact hm.exec_makeOne hr hk (hd d hdir) (by simpa using hsk) hs hv) hs
    (by rintro name - p rfl; exact hva name)
  -- A file has no name that a directory has.
  have hdi : ∀ f ∈ files, ∀ d ∈ directories.filter (fun d => !skippedDirectories.contains d), f ≠ d := by
    rintro f hfi d hmem rfl
    obtain ⟨n, hn, hne⟩ := hf f hfi
    rw [hd f (mem_of_mem_filter hmem)] at hn
    exact hne (Option.some.inj hn).symm
  obtain ⟨s₂, he₂, hs₂, ha₂, ho₂⟩ := exec_forM_apart (placeIn_apart q rel) files s₁ hno'
    (fun f hfi s hs hv => by
      obtain ⟨n, hn, hne⟩ := hf f hfi
      exact hm.exec_copySource hr hk hn hne hs hv) hs₁ (by
      rintro f hfi p rfl
      rw [ho₁ _ fun d hmem h => hdi f hfi d hmem (placeIn_apart q rel f d _ rfl h), hva])
  refine ⟨s₂, ?_, hs₂, ?_, fun p hp => ?_⟩
  · rw [copyVisit_eq, exec_bind_ok he₁, exec_bind_ok he₂]
    rfl
  · rintro name (hmem | hmem)
    · rw [ho₂ _ fun f hfi h => hdi f hfi name hmem (placeIn_apart q rel f name _ h rfl),
        ha₁ name hmem _ rfl, hi]
    · rw [ha₂ name hmem _ rfl, hi]
  · rw [ho₂ p fun f hfi => hp f (.inr hfi), ho₁ p fun d hmem => hp d (.inl hmem)]

/-! ## The walk -/

/-- **What the walk does at one directory**: the names in it that are copied are in its copy, and those
of the directories among them are answered. -/
theorem exec_level (hs : Visiting t q rel s.tree) (hv : ∀ name, s.tree.node? (q ++ rel ++ [name]) = none) :
    ∃ kept s', exec (copyVisit source dest (Path.extend source rel)
        (directoriesAt s.tree (Path.extend source rel) (root ++ rel))
        (filesAt s.tree (Path.extend source rel) (root ++ rel))) s = (.ok kept, s') ∧
      Visiting t q rel s'.tree ∧ kept.Nodup ∧
      (∀ d, d ∈ kept ↔ t.mirror source root (rel ++ [d]) = some .directory) ∧
      (∀ name, s'.tree.node? (q ++ rel ++ [name]) = t.mirror source root (rel ++ [name])) ∧
      ∀ p, (∀ name, p ≠ q ++ rel ++ [name]) → s'.tree.node? p = s.tree.node? p := by
  obtain ⟨-, hmem⟩ := hm.names_source hr hs.copying
  have hno := hs.copying.sound.nodup_names (root ++ rel)
  have hd : ∀ d, d ∈ directoriesAt s.tree (Path.extend source rel) (root ++ rel) ↔
      t.node? (root ++ (rel ++ [d])) = some .directory := by
    intro d
    rw [directoriesAt, mem_filter, hmem]
    constructor
    · rintro ⟨⟨n, hn⟩, hdir⟩
      rw [hn, (hm.hasDirectory_child hr hs.copying hn).1 hdir]
    · intro hn
      exact ⟨⟨_, hn⟩, (hm.hasDirectory_child hr hs.copying hn).2 rfl⟩
  have hf : ∀ f, f ∈ filesAt s.tree (Path.extend source rel) (root ++ rel) ↔
      ∃ n, t.node? (root ++ (rel ++ [f])) = some n ∧ n ≠ .directory := by
    intro f
    rw [filesAt, mem_filter, hmem]
    constructor
    · rintro ⟨⟨n, hn⟩, hdir⟩
      exact ⟨n, hn, fun heq => by simp [(hm.hasDirectory_child hr hs.copying hn).2 heq] at hdir⟩
    · rintro ⟨n, hn, hne⟩
      exact ⟨⟨n, hn⟩, by simpa using mt (hm.hasDirectory_child hr hs.copying hn).1 hne⟩
  obtain ⟨s', he, hs', hl, ho⟩ := hm.exec_visit hr hk hs hv (hno.filter _)
    (hno.filter _) (fun d => (hd d).1) (fun f => (hf f).1)
  have hdi : ∀ d, d ∈ (directoriesAt s.tree (Path.extend source rel) (root ++ rel)).filter
      (fun d => !skippedDirectories.contains d) ↔ t.mirror source root (rel ++ [d]) = some .directory := by
    intro d
    have ha : (Unskipped (rel ++ [d])) ↔ d ∉ skippedDirectories := by
      rw [Unskipped, forall_mem_append, forall_mem_singleton]
      exact and_iff_right hk
    rw [mem_filter, hd, FileTree.mirror_eq_directory_iff, ha]
    simp
  refine ⟨_, s', he, hs', (hno.filter _).filter _, hdi, fun name => ?_, fun p hp =>
    ho p fun name _ => hp name⟩
  -- A name that is not copied is not in the copy, and it is not to be there.
  by_cases hc : t.mirror source root (rel ++ [name]) = some .directory ∨
      name ∈ filesAt s.tree (Path.extend source rel) (root ++ rel)
  · rw [← hdi] at hc
    exact hl name hc
  · rw [not_or, hf] at hc
    rw [ho _ fun other hot heq => ?_, hv, FileTree.mirror]
    · cases hn : t.node? (root ++ (rel ++ [name])) with
      | none => rfl
      | some n =>
        have hdir : n = .directory := by
          by_contra hne
          exact hc.2 ⟨n, hn, hne⟩
        subst hdir
        exact (if_neg fun ha => hc.1 (FileTree.mirror_eq_directory_iff.2 ⟨hn, ha⟩)).symm
    · rw [placeIn_apart q rel name other _ rfl heq, ← hdi, ← hf] at hc
      exact hot.elim hc.1 hc.2

omit hr hk

def descend (followLinks : Bool) (visit : Text → List Text → List Text → Job (List Text)) (depth : Nat)
    (path name : Text) : Job Unit := do
  if followLinks || !(← tree).hasLink (Path.join path name) then
    walk followLinks visit depth (Path.join path name)

omit hm in
theorem exec_walk_succ {followLinks : Bool} {visit : Text → List Text → List Text → Job (List Text)}
    {depth : Nat} {p : Location} (h : s.tree.locate true path = .ok (p, some .directory)) :
    exec (walk followLinks visit (depth + 1) path) s = exec (visit path (directoriesAt s.tree path p)
      (filesAt s.tree path p) >>= fun below => below.forM (descend followLinks visit depth path)) s := by
  have hn : s.tree.namesAt path = some (s.tree.names p) := by rw [FileTree.namesAt, h]
  rw [walk, exec_bind_ok (exec_tree s), hn]
  rfl

theorem exec_walk (followLinks : Bool) : ∀ (depth : Nat) (rel : Location) (s : Session),
    t.entries.length < depth + rel.length → t.node? (root ++ rel) = some .directory → Unskipped rel →
    Visiting t q rel s.tree → (∀ r, r ≠ [] → s.tree.node? (q ++ rel ++ r) = none) →
    ∃ s', exec (walk followLinks (copyVisit source dest) depth (Path.extend source rel)) s = (.ok (), s') ∧
      Copying t q s'.tree ∧
      (∀ r, r ≠ [] → s'.tree.node? (q ++ rel ++ r) = t.mirror source root (rel ++ r)) ∧
      ∀ p, (∀ r, r ≠ [] → p ≠ q ++ rel ++ r) → s'.tree.node? p = s.tree.node? p
  | 0, rel, s, hdepth, hrel, _, _, _ => by
    have hlen := hm.sound.length_le hrel
    rw [length_append] at hlen
    omega
  | depth + 1, rel, s, hdepth, hrel, hk, hs, hva => by
    obtain ⟨kept, s₁, hexec₁, hs₁, hno, hdi, hl₁, ho₁⟩ :=
      hm.exec_level hrel hk hs fun name => hva [name] (by simp)
    -- Nothing lies deeper yet: a longer place is none in the directory itself.
    have hde : ∀ name r, r ≠ [] → s₁.tree.node? (q ++ rel ++ [name] ++ r) = none := by
      intro name r hr
      rw [ho₁ _ fun other heq => ?_, append_assoc]
      · exact hva ([name] ++ r) (by simp)
      · rw [append_assoc _ [name]] at heq
        simpa [hr] using append_cancel_left heq
    have hb : ∀ d ∈ kept, ∀ s : Session,
        Standing t q rel kept s.tree → (∀ p, belowIn q rel d p → s.tree.node? p = none) →
        Fills (Standing t q rel kept) (belowIn q rel d) (imageAt t source root q)
          (descend followLinks (copyVisit source dest) depth (Path.extend source rel) d) s := by
      rintro d hd s ⟨hs, ht⟩ hv
      obtain ⟨hdir, hall⟩ := FileTree.mirror_eq_directory_iff.1 ((hdi d).1 hd)
      have hpl : s.tree.node? (q ++ (rel ++ [d])) = some .directory := by
        rw [← append_assoc, ht d hd]
      obtain ⟨s', hexec, hs', ha, ho⟩ := exec_walk followLinks depth (rel ++ [d]) s
        (by rw [length_append, length_singleton]; omega) hdir hall ⟨hs.copying, hpl⟩
        fun r hr => by rw [← append_assoc q rel]; exact hv _ ⟨r, hr, rfl⟩
      rw [← append_assoc q rel] at ha ho
      have ho : ∀ p, ¬ belowIn q rel d p → s'.tree.node? p = s.tree.node? p :=
        fun p hp => ho p fun r hr heq => hp ⟨r, hr, heq⟩
      refine ⟨s', ?_, ⟨⟨hs', ?_⟩, fun e he => ?_⟩, ?_, ho⟩
      · have hli : s.tree.hasLink (Path.join (Path.extend source rel) d) = false := by
          rw [FileTree.hasLink, hm.locate_child hs.copying hrel hdir false]
        rw [descend, exec_bind_ok (exec_tree s), hli, Bool.not_false, Bool.or_true, if_pos rfl,
          ← Path.extend_concat, hexec]
      · rw [ho _ ?_, hs.place]
        rintro ⟨r, hr, h⟩
        simp at h
      · rw [ho _ (not_belowIn q rel d e), ht e he]
      · rintro p ⟨r, hr, rfl⟩
        rw [ha r hr, append_assoc q, append_assoc q, imageAt_append]
    obtain ⟨s₂, hexec₂, ⟨hs₂, -⟩, ha₂, ho₂⟩ := exec_forM_apart (belowIn_apart q rel) kept s₁ hno hb
      ⟨hs₁, fun d hd => by rw [hl₁, (hdi d).1 hd]⟩ (by rintro name - p ⟨r, hr, rfl⟩; exact hde name r hr)
    refine ⟨s₂, ?_, hs₂.copying, fun r hr => ?_, fun p hp => ?_⟩
    · rw [exec_walk_succ (hm.locate_source hs.copying hrel), exec_bind_ok hexec₁, hexec₂]
    · obtain ⟨name, r, rfl⟩ := exists_cons_of_ne_nil hr
      rw [append_cons, append_cons rel]
      by_cases hend : r = []
      · rw [hend, append_nil, append_nil, ho₂ _ fun d _ => not_belowIn q rel d name, hl₁]
      · by_cases hn : name ∈ kept
        · rw [ha₂ name hn _ ⟨r, hend, rfl⟩, append_assoc q, append_assoc q, imageAt_append]
        · rw [ho₂ _ ?_, hde name r hend, hm.sound.mirror_below (mt (hdi name).2 hn) hend]
          intro d hd h
          exact hn (belowIn_apart q rel d name _ h ⟨r, hend, rfl⟩ ▸ hd)
    · rw [ho₂ p ?_, ho₁ p ?_]
      · exact fun name => hp [name] (by simp)
      · rintro name - ⟨r, hr, rfl⟩
        exact hp ([name] ++ r) (by simp) (by simp)

end Mirroring

theorem apart_of_empty (ht : t.Sound) (hro : t.node? root = some .directory) (he : t.names q = [])
    (ho : ¬ root <+: q) (rel : Location) : ¬ q <+: root ++ rel := by
  intro h
  rcases prefix_or_prefix_of_prefix h (prefix_append root rel) with ⟨r, rfl⟩ | h
  · by_cases hr : r = []
    · exact ho (by simp [hr])
    · rw [ht.vacant_of_empty he hr] at hro
      cases hro
  · exact ho h

theorem exec_copyDirectory (hm : Mirroring t source dest root q) (he : t.names q = []) {o : Options}
    (hsub : o.noSubdirectories = false) {t₀ : FileTree} (hma : t₀.makeDirectories dest = (t, none))
    (printed : Text) (copies : List (Text × Text)) :
    ∃ s, exec (copyDirectory o source dest) ⟨t₀, printed, copies⟩ = (.ok (), s) ∧ s.tree.node? q = some .directory ∧
      ∀ rel, rel ≠ [] → s.tree.node? (q ++ rel) = t.mirror source root rel := by
  have hro := FileTree.node?_of_locate hm.source_at
  have hv : Visiting t q [] t := by
    refine ⟨⟨hm.sound, .refl t, fun _ _ => rfl⟩, ?_⟩
    rw [append_nil, FileTree.node?_of_locate hm.dest_at]
  obtain ⟨s, hexec, hs, hmi, -⟩ := hm.exec_walk o.followLinks (walkDepth t) [] ⟨t, printed, copies⟩
    (by rw [walkDepth, FileTree.maxLinks]; simp; omega) (by rw [append_nil, hro]) (by simp [Unskipped])
    hv fun r hr => by rw [append_nil]; exact hm.sound.vacant_of_empty he hr
  refine ⟨s, ?_, hs.grows.directory (FileTree.node?_of_locate hm.dest_at), fun rel hrel => ?_⟩
  · rw [copyDirectory, exec_bind_ok (exec_makeDestination hma _ _), hsub]
    exact (exec_bind_ok (exec_tree _)).trans hexec
  · have := hmi rel hrel
    rwa [append_nil, nil_append] at this

end Job

theorem FileTree.mirror_eq_file_iff {t : FileTree} {source : Text} {root rel : Location} {bytes : Bytes}
    {x : Bool} : t.mirror source root rel = some (.file bytes x) ↔
      t.node? (root ++ rel) = some (.file bytes x) ∧ isSource t (Path.extend source rel) = .ok true ∧
        Unskipped rel.dropLast := by
  rw [mirror]
  cases t.node? (root ++ rel) with
  | none => simp
  | some n =>
    cases n with
    | file bytes' x' =>
      by_cases h : Unskipped rel.dropLast ∧ isSource t (Path.extend source rel) = .ok true
      · simp [h]
      · simp only [if_neg h, reduceCtorEq, false_iff]
        exact fun ha => h ha.2.symm
    | _ => simp

open Job in
/-- **The copy of a directory has exactly its sources**, with their names, their content and their marks,
but for those below directories that are not copied. -/
theorem copy_mirrors_sources {t t₁ : FileTree} {o : Options} {source dest printed : Text}
    {root q : Location} {copies : List (Text × Text)} (ht : t.Sound) (hsub : o.noSubdirectories = false)
    (hsource : t.locate true source = .ok (root, some .directory))
    (hlinks : ∀ rel n, t.node? (root ++ rel) = some n → n.isLink = false)
    (hmade : t.makeDirectories dest = (t₁, none))
    (hdest : t₁.locate true dest = .ok (q, some .directory)) (hempty : t₁.names q = [])
    (houtside : ¬ root <+: q) (hslash : source.endsWith ['/'] = true → dest.endsWith ['/'] = true)
    (honce : ∀ rel, t₁.node? (root ++ rel) = some .directory → Unskipped rel →
      (Path.behind source rel).has source = false) :
    ∃ s, exec (copyDirectory o source dest) ⟨t, printed, copies⟩ = (.ok (), s) ∧
      ∀ rel bytes x, s.tree.node? (q ++ rel) = some (.file bytes x) ↔
        t.node? (root ++ rel) = some (.file bytes x) ∧ isSource t (Path.extend source rel) = .ok true ∧
          Unskipped rel.dropLast := by
  have hmakes := FileTree.makeDirectories_makes t dest
  rw [hmade] at hmakes
  have hsteps : FileTree.Steps (fun _ => False) t t₁ := FileTree.steps_of_makes hmakes
  have hgrows := hsteps.touches.grows
  have ht₁ := hsteps.sound ht
  have hsource₁ := hgrows.locate hsource
  rw [hgrows.directory (FileTree.node?_of_locate hsource)] at hsource₁
  have hroot := FileTree.node?_of_locate hsource₁
  have hfile : ∀ p bytes x, t₁.node? p = some (.file bytes x) ↔ t.node? p = some (.file bytes x) := by
    intro p bytes x
    rcases FileTree.node?_of_makes hmakes p with h | ⟨hnone, hdir⟩
    · rw [h]
    · rw [hnone, hdir]
      simp
  have hm : Mirroring t₁ source dest root q := by
    refine ⟨ht₁, hsource₁, fun rel target hlink => ?_, hdest, apart_of_empty ht₁ hroot hempty houtside, hslash, honce⟩
    rcases FileTree.node?_of_makes hmakes (root ++ rel) with h | ⟨-, hdir⟩
    · rw [h] at hlink
      cases hlinks rel _ hlink
    · rw [hdir] at hlink
      cases hlink
  obtain ⟨s, hexec, hq, hmirror⟩ := exec_copyDirectory hm hempty hsub hmade printed copies
  refine ⟨s, hexec, fun rel bytes x => ?_⟩
  by_cases hrel : rel = []
  · have hdir := FileTree.node?_of_locate hsource
    rw [hrel, List.append_nil, List.append_nil, hdir, hq]
    simp
  · rw [hmirror rel hrel, FileTree.mirror_eq_file_iff, hfile]
    refine and_congr_right fun hnode => ?_
    rw [isSource_congr]
    rw [ht₁.stat_extend hsource₁ ((hfile _ _ _).2 hnode) rfl, ht.stat_extend hsource hnode rfl]

/-- A directory `s` with a source, another file, a directory with a source and a directory that is
skipped, and a directory `d` that is there already. -/
def shelves : FileTree where
  entries := [([['s']], .directory), ([['s'], "a.py"], .file [49] false), ([['s'], ['n']], .file [50] false),
    ([['s'], ['t']], .directory), ([['s'], ['t'], "b.py"], .file [51] true), ([['s'], ".git"], .directory),
    ([['s'], ".git", "c.py"], .file [52] false), ([['d']], .directory)]
  here := []

def shelvesRun : Options := ⟨"/s", false, false, none, none, false, true, .new⟩

open Job in
theorem copy_mirrors_sources_shelves :
    ∃ s, exec (copyDirectory shelvesRun "/s" "/e") ⟨shelves, [], []⟩ = (.ok (), s) ∧
      s.tree.node? [['e'], ['t'], "b.py"] = some (.file [51] true) ∧
      s.tree.node? [['e'], ".git", "c.py"] ≠ some (.file [52] false) := by
  have hlinks : ∀ rel n, shelves.node? ([['s']] ++ rel) = some n → n.isLink = false := fun rel n =>
    FileTree.forall_node? (P := fun _ n => n.isLink = false) rfl (by decide)
  have honce : ∀ rel, (shelves.put [['e']] .directory).node? ([['s']] ++ rel) = some .directory →
      Unskipped rel → (Path.behind "/s" rel).has "/s" = false := fun rel =>
    FileTree.forall_node? (P := fun p _ => Unskipped (p.drop 1) → (Path.behind "/s" (p.drop 1)).has "/s" = false)
      (by decide) (by decide)
  obtain ⟨s, hexec, hfiles⟩ := @copy_mirrors_sources shelves (shelves.put [['e']] .directory) shelvesRun
    "/s" "/e" [] [['s']] [['e']] [] (by decide) rfl (by decide) hlinks (by decide) (by decide) (by decide)
    (by decide) (by decide) honce
  exact ⟨s, hexec, (hfiles [['t'], "b.py"] _ _).2 (by decide), mt (hfiles [".git", "c.py"] _ _).1 (by decide)⟩

open Job in
/-- A destination that is there already is refused, and nothing is copied; and with a slash behind the
source, what lies deeper is looked for beside the destination. -/
theorem copy_refused_or_astray : (exec (copyDirectory shelvesRun "/s" "/d") ⟨shelves, [], []⟩).1 = .error .leave ∧
      (exec (copyDirectory shelvesRun "/s" "/d") ⟨shelves, [], []⟩).2.tree = shelves ∧
      (exec (copyDirectory shelvesRun "/s/" "/e") ⟨shelves, [], []⟩).1 =
        .error (.fail (.file ⟨.missing, "/et/b.py"⟩)) :=
  ⟨rfl, by decide, rfl⟩

end QtMigration
