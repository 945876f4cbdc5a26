import QtMigration.Proofs.CommandLine.Writes

/-!
# Proofs/CommandLine/Inputs — which files a run leaves alone

From what the parts of a run write (`Writes`) follows what a whole run writes, for every command line and
every tree.
-/

namespace QtMigration

namespace Job

open FileTree (Steps)
open Within (Any)

variable {o : Options} {t : FileTree} {logPath : Option Text} {path dest : Text}

section Places

variable (hpa : path = t.fullPath o.path) (hd : dest = (o.output.map t.fullPath).getD path)
include hpa hd

theorem mem_places_of_directory (hdir : t.hasDirectory path) :
    (if dest == path then o.target.directoryFor path else dest) ∈ o.places t := by
  subst hpa
  rw [Options.places, ← hd, if_pos hdir]
  split <;> simp

theorem mem_places_of_file (hdir : t.hasDirectory path = false) {own : Text}
    (ho : own = o.target.fileFor path ∨ own = o.target.listingDirectory) :
    (if dest == path then own else dest) ∈ o.places t := by
  subst hpa
  rw [Options.places, ← hd, hdir]
  split
  · rcases ho with rfl | rfl <;> simp
  · simp

variable (hl : ∀ p ∈ logPath, o.Writes t p)
include hl

theorem runDirectory_within (ht : t.Sound) (hdir : t.hasDirectory path) :
    Within (o.Writes t) t (runDirectory o logPath path dest) Any := by
  have hp := mem_places_of_directory hpa hd hdir
  rw [runDirectory]
  generalize (if dest == path then o.target.directoryFor path else dest) = place at hp
  subst hpa
  refine (copyDirectory_within ht o (fun w hw => .below hp hw) fun v w hv hw =>
    .copy hdir hp hv hw).bind fun _ _ =>
    (placeForSeveral_within o place).bind fun c hc => convertDirectory_within ht o hl ?_ ?_
  · intro w hw
    rcases hc w hw with hw | rfl
    · exact .comparison hp hw
    · exact .below hp (Path.Below.refl.join (by decide))
  · exact fun w hw => .below hp hw

theorem runListing_within (ht : t.Sound) (hdir : t.hasDirectory path = false) :
    Within (o.Writes t) t (runListing o logPath path dest) Any := by
  have hp := mem_places_of_file hpa hd hdir (.inr rfl)
  rw [runListing]
  generalize (if dest == path then o.target.listingDirectory else dest) = place at hp
  refine (readListing_within path).bind fun listing _ =>
    (copyListed_within ht (fun w hw => .below hp hw) listing.files).bind fun _ _ =>
    (placeForSeveral_within o place).bind fun c hc => convertDirectory_within ht o hl ?_ ?_
  · intro w hw
    rcases hc w hw with hw | rfl
    · exact .comparison hp hw
    · exact .below hp (Path.Below.refl.join (by decide))
  · exact fun w hw => .below hp hw

theorem runSource_within (hdir : t.hasDirectory path = false) :
    Within (o.Writes t) t (runSource o logPath path dest) Any := by
  have hp := mem_places_of_file hpa hd hdir (.inl rfl)
  rw [runSource]
  generalize (if dest == path then o.target.fileFor path else dest) = place at hp
  refine (placeForOne_within o place).bind fun c hc =>
    (convert_within hl (.below hp .refl) o.target).bind fun _ _ =>
    compare_within hl (fun w hw => ?_) (fun h => ?_) (some path)
  · exact .comparison hp (hc.1 w hw)
  · exact .comparison hp (hc.2 h)

theorem runPath_within (ht : t.Sound) (hh : t.has path) :
    Within (o.Writes t) t (runPath o logPath path dest) Any := by
  refine Within.tree.bind fun u hu => ?_
  rw [hu.touches.grows.hasDirectory hh]
  split
  next hdir => exact runDirectory_within hpa hd hl ht hdir
  next hdir =>
    have hdir : t.hasDirectory path = false := by simpa using hdir
    split
    · split
      · exact .fail _
      · exact runSource_within hpa hd hl hdir
      · exact runListing_within hpa hd hl ht hdir
    · exact .pure trivial

end Places

theorem exec_checkExisting (path : Text) (s : Session) : exec (checkExisting path) s =
    if s.tree.has (s.tree.fullPath path) then (.ok (some (s.tree.fullPath path)), s)
    else (.ok none, { s with
      printed := s.printed ++ ("No such file or directory: `" ++ s.tree.fullPath path ++ "`\n") }) := by
  rw [checkExisting, exec_bind_ok (exec_tree s)]
  dsimp only
  split <;> rfl

def pathOf (o : Options) : Job (Option Text) :=
  if o.path.isEmpty then pure none else some <$> orLeave (checkExisting o.path)

def destinationOf (o : Options) (path : Option Text) : Job (Option Text) :=
  match o.output with
  | some s => some <$> orLeave (checkWritable s)
  | none => pure path

theorem runOptions_eq (o : Options) (date : Text) (args : List Text) :
    runOptions o date args = pathOf o >>= fun path => destinationOf o path >>= fun dest =>
      log (if o.noLog then none else some o.target.logName) (logHead o.target date args) >>= fun _ =>
        match path, dest with
        | some path, some dest => runPath o (if o.noLog then none else some o.target.logName) path dest
        | _, _ => fail .noPath := by
  rw [runOptions, pathOf]
  split
  · exact congrArg (pure none >>= ·) (funext fun path => by rw [destinationOf]; cases o.output <;> rfl)
  · exact congrArg (some <$> orLeave (checkExisting o.path) >>= ·)
      (funext fun path => by rw [destinationOf]; cases o.output <;> rfl)

theorem exec_pathOf (o : Options) (s : Session) : (exec (pathOf o) s).2.tree = s.tree ∧
    ∀ found, (exec (pathOf o) s).1 = .ok found →
      ∀ p ∈ found, p = s.tree.fullPath o.path ∧ s.tree.has p := by
  rw [pathOf]
  split
  · refine ⟨rfl, fun found hf p hp => ?_⟩
    cases hf
    cases hp
  · rw [map_eq_pure_bind, exec_bind, orLeave, exec_bind, exec_checkExisting]
    by_cases hh : s.tree.has (s.tree.fullPath o.path)
    · rw [if_pos hh]
      refine ⟨rfl, fun found hf p hp => ?_⟩
      cases hf
      cases hp
      exact ⟨rfl, hh⟩
    · rw [if_neg hh]
      exact ⟨rfl, fun found hf => by cases hf⟩

theorem destinationOf_within {W : Text → Prop} (o : Options) (path : Option Text) :
    Within W t (destinationOf o path) fun dest =>
      ∀ d ∈ dest, ∀ p ∈ path, d = (o.output.map t.fullPath).getD p := by
  rw [destinationOf]
  cases o.output with
  | none =>
    refine .pure fun d hd p hp => ?_
    rw [hd] at hp
    exact Option.some.inj hp
  | some out =>
    have ho : Within W t (orLeave (checkWritable out)) fun d => d = t.fullPath out := by
      refine (checkWritable_within out).bind fun r hr => ?_
      split
      · exact .pure (hr _ rfl)
      · exact .leave
    refine ho.map fun d hd e he p hp => ?_
    rw [← Option.some.inj he]
    exact hd

theorem runOptions_steps (ht : t.Sound) (o : Options) (date : Text) (args : List Text) {s : Session}
    (hs : s.tree = t) : Steps (o.Writes t) t (exec (runOptions o date args) s).2.tree := by
  obtain ⟨htr, hf⟩ := exec_pathOf o s
  rw [hs] at htr hf
  have hl : ∀ p ∈ (if o.noLog then none else some o.target.logName), o.Writes t p := by
    intro p hp
    split at hp
    · cases hp
    next h =>
      cases hp
      exact .log (by simpa using h)
  rw [runOptions_eq, exec_bind]
  rcases he : exec (pathOf o) s with ⟨e | path, s'⟩
  · rw [he] at htr
    rw [htr]
    exact .refl
  · rw [he] at htr hf
    refine ((destinationOf_within o path).bind (R := Any) (fun dest hd => ?_) s' ?_).1
    · refine (log_within hl _).bind fun _ _ => ?_
      split
      next p d =>
        obtain ⟨hp, hh⟩ := hf _ rfl p rfl
        exact runPath_within hp (hd d rfl p rfl) hl ht hh
      · exact .fail _
    · rw [htr]
      exact .refl

end Job

theorem runCommand_eq (date : Text) (args : List Text) (t : FileTree) {o : Options}
    (ho : parseOptions args = .ok (some o)) :
    (runCommand date args t).tree = (Job.exec (Job.runOptions o date args) ⟨t, [], []⟩).2.tree := by
  rw [runCommand, ho]
  change (Job.resultOn t (Job.runOptions o date args)).tree = _
  rw [Job.resultOn]
  change (match Job.exec (Job.runOptions o date args) ⟨t, [], []⟩ with
    | (.ok (), s) => (⟨s.tree, s.printed, .done⟩ : RunResult)
    | (.error .leave, s) => ⟨s.tree, s.printed, .done⟩
    | (.error (.fail f), s) => ⟨s.tree, s.printed, .failed f⟩).tree = _
  rcases Job.exec (Job.runOptions o date args) ⟨t, [], []⟩ with ⟨(_ | _) | _, _⟩ <;> rfl

/-- **A run leaves the content of every file alone to which no path leads that it writes**, be it the
source, the list, a file that the list names, or one below the directory that is converted. -/
theorem files_keep_content {t : FileTree} (ht : t.Sound) (date : Text) (args : List Text) {f : Text}
    (hf : t.hasFile f = true)
    (hw : ∀ o w, parseOptions args = .ok (some o) → o.Writes t w → (runCommand date args t).tree.same w f = false) :
    (runCommand date args t).tree.read f = t.read f := by
  cases hparse : parseOptions args with
  | error fault => rw [runCommand, hparse]
  | ok asked =>
    cases asked with
    | none => rw [runCommand, hparse]
    | some o =>
      have htouches := (Job.runOptions_steps ht o date args (s := ⟨t, [], []⟩) rfl).touches
      rw [← runCommand_eq date args t hparse] at htouches
      exact htouches.read_eq hf fun w => hw o w hparse

def shelf : FileTree where
  entries := [([['w']], .directory), ([['w'], ['l']], .file [97, 47, 98, 10] false),
    ([['w'], ['a']], .directory), ([['w'], ['a'], ['b']], .file [120] true)]
  here := [['w']]

/-- The tree after the listed file was copied and the copy converted. -/
def servedShelf : FileTree where
  entries := shelf.entries ++ [([['w'], "__PyQt5__"], .directory),
    ([['w'], "__PyQt5__", ['b']], .file [120] true)]
  here := [['w']]

theorem servedShelf_eq : (runCommand [] [['l'], "--nolog"] shelf).tree = servedShelf := by decide

theorem files_keep_content_shelf : (runCommand [] [['l'], "--nolog"] shelf).tree.read ['a', '/', 'b'] =
    .ok [120] := by
  refine (files_keep_content (by decide) [] [['l'], "--nolog"] (by decide) fun o w ho hw => ?_).trans
    (by decide)
  rw [servedShelf_eq]
  have ho' : o = { Options.initial with path := ['l'], noLog := true } := by
    have hparse : parseOptions [['l'], "--nolog"] =
        .ok (some { Options.initial with path := ['l'], noLog := true }) := by decide
    rw [hparse] at ho
    exact (Option.some.inj (Except.ok.inj ho)).symm
  subst ho'
  have hbelow : ∀ base q found, servedShelf.locate true base = .ok (q, found) →
      ¬ q <+: [['w'], ['a'], ['b']] → Path.Below base w → servedShelf.same w ['a', '/', 'b'] = false := by
    intro base q found hbase hq h
    exact FileTree.Sound.same_eq_false_of_below (by decide) hbase (by decide) (n := .file [120] true) (by decide) hq h
  cases hw with
  | log h => cases h
  | comparison hdest hw => cases hw
  | below hdest hw =>
    have hplaces : Options.places { Options.initial with path := ['l'], noLog := true } shelf =
        ["/w/l_PyQt5", "__PyQt5__"] := by decide
    rw [hplaces] at hdest
    rcases List.mem_cons.1 hdest with rfl | hdest
    · exact hbelow _ [['w'], "l_PyQt5"] none (by decide) (by decide) hw
    · rw [List.mem_singleton.1 hdest] at hw
      exact hbelow _ [['w'], "__PyQt5__"] (some .directory) (by decide) (by decide) hw
  | copy hdir => exact absurd hdir (by decide)

/-- A list that names two files of one name, one of them in the working directory. -/
def crowdedShelf : FileTree where
  entries := [([['w']], .directory), ([['w'], ['l']], .file [97, 47, 98, 10, 98, 10] false),
    ([['w'], ['a']], .directory), ([['w'], ['a'], ['b']], .file [120] true),
    ([['w'], ['b']], .file [121] false)]
  here := [['w']]

/-- A listed file is lost if the copies go to the directory it is in: the copy of another file of its
name takes its place. -/
theorem listed_file_lost : crowdedShelf.Sound ∧ crowdedShelf.read ['b'] = .ok [121] ∧
    (runCommand [] [['l'], ['-', 'o'], ['.'], "--nolog"] crowdedShelf).tree.read ['b'] = .ok [120] := by
  decide

end QtMigration
