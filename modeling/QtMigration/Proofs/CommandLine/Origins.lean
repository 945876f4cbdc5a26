import QtMigration.Proofs.CommandLine.Noted

/-!
# Proofs/CommandLine/Origins — the files from which the converted ones were copied

The copies are converted in place by a second walk, which has to find in the table of the copies where each
file came from.
-/

namespace QtMigration

open List

open FileTree (Grows Gains anywhere nowhere)

variable {files : List Text} {d path : Text}

namespace Job

open Session (Onward Noted)
open Within (Any)

/-- Ask where a file was copied from, and break off if that is no original of it. -/
def requireOrigin (isOrigin : Text → Text → Bool) (file : Text) : Job Unit := do
  if !isOrigin file (← sourceOf file) then fail .unsettled

def convertOne (check : Text → Job Unit) (o : Options) (logPath : Option Text) (place : ComparisonPlace)
    (path f : Text) : Job Unit := do
  check (Path.join path f)
  convert o.target logPath (Path.join path f) (Path.join path f)
  compare place logPath (Path.join path f) none

def convertVisit (check : Text → Job Unit) (o : Options) (logPath : Option Text) (place : ComparisonPlace)
    (path : Text) (directories files : List Text) : Job (List Text) := do
  files.forM (convertOne check o logPath place path)
  return directories

/-- Convert all files in a directory and below it in place, each after a check. -/
def convertChecking (check : Text → Job Unit) (o : Options) (logPath : Option Text)
    (place : ComparisonPlace) (dir : Text) : Job Unit := do
  log logPath ("Beginning into: " ++ dir ++ "\n")
  walk o.followLinks (convertVisit check o logPath place) (walkDepth (← tree)) dir

def unchecked (_ : Text) : Job Unit := return ()

theorem convertDirectory_eq (o : Options) (logPath : Option Text) (place : ComparisonPlace) (dir : Text) :
    convertDirectory o logPath place dir = convertChecking unchecked o logPath place dir := rfl

/-! ## Jobs that do the same -/

/-- From here on two jobs do the same, and add files only at the places `New`. -/
def Agrees {α : Type} (New : Location → Prop) (s : Session) (job job' : Job α) : Prop :=
  exec job s = exec job' s ∧ Onward New s (exec job' s).2

namespace Agrees

variable {α β : Type} {New New' : Location → Prop} {s s₀ : Session} {job job' : Job α}

theorem pure (a : α) : Agrees New s (pure a) (pure a) := ⟨rfl, .refl New s⟩

theorem mono (h : Agrees New s job job') (hn : ∀ p, New p → New' p) : Agrees New' s job job' :=
  ⟨h.1, h.2.mono hn⟩

theorem bind {f f' : α → Job β} (h : Agrees New s job job')
    (hf : ∀ a s', exec job' s = (.ok a, s') → Onward New s s' → Agrees New s' (f a) (f' a)) :
    Agrees New s (job >>= f) (job' >>= f') := by
  obtain ⟨heq, hn⟩ := h
  rw [Agrees, exec_bind, exec_bind, heq]
  rcases he : exec job' s with ⟨e | a, s'⟩
  · rw [he] at hn
    exact ⟨rfl, hn⟩
  · rw [he] at hn
    obtain ⟨heq', hn'⟩ := hf a s' he hn
    exact ⟨heq', hn.trans hn'⟩

theorem of_adds {Q : α → Prop} (h : Adds s₀ New job Q) (hs : Onward anywhere s₀ s) : Agrees New s job job :=
  ⟨rfl, (h s hs).1⟩

end Agrees

/-! ## The conversion -/

def inside (q rel p : Location) : Prop := ∃ r, r ≠ [] ∧ p = q ++ rel ++ r

def deepIn (q p : Location) : Prop := ∃ r, 2 ≤ r.length ∧ p = q ++ r

/-- Where files are added when the directory at `q ++ rel` is visited: in it, or nowhere where the walk
will come. -/
def byVisit (q rel p : Location) : Prop := (∃ name, p = q ++ rel ++ [name]) ∨ ¬ deepIn q p

def byWalk (q rel p : Location) : Prop := inside q rel p ∨ ¬ deepIn q p

theorem byWalk_of_byVisit {q rel p : Location} (h : byVisit q rel p) : byWalk q rel p := by
  rcases h with ⟨name, rfl⟩ | h
  · exact .inl ⟨[name], by simp, rfl⟩
  · exact .inr h

theorem inside_concat {q rel p : Location} (h : inside q (rel ++ [d]) p) : inside q rel p := by
  obtain ⟨r, -, rfl⟩ := h
  exact ⟨d :: r, by simp, by simp⟩

theorem deepIn_of_inside {q rel p : Location} (h : inside q (rel ++ [d]) p) : deepIn q p := by
  obtain ⟨r, hr, rfl⟩ := h
  refine ⟨rel ++ [d] ++ r, ?_, by simp⟩
  have := length_pos_of_ne_nil hr
  rw [length_append, length_append, length_singleton]
  omega

theorem not_inside_of_byVisit {q rel p : Location} (h : byVisit q rel p) : ¬ inside q (rel ++ [d]) p := by
  intro hin
  rcases h with ⟨name, rfl⟩ | h
  · obtain ⟨r, hr, heq⟩ := hin
    simp [hr] at heq
  · exact h (deepIn_of_inside hin)

theorem not_inside_of_byWalk {q rel p : Location} {e : Text} (hne : d ≠ e)
    (h : byWalk q (rel ++ [d]) p) : ¬ inside q (rel ++ [e]) p := by
  intro hin
  rcases h with ⟨r, hr, rfl⟩ | h
  · obtain ⟨r', -, heq⟩ := hin
    simp [hne] at heq
  · exact h (deepIn_of_inside hin)

section Checking

variable {Dir : FileTree → Location → Prop} {isOrigin : Text → Text → Bool} {dest : Text} {q rel : Location}
  {s₀ s : Session} {t : FileTree} {o : Options} {logPath : Option Text} {place : ComparisonPlace}

theorem exec_requireOrigin {file : Text} (h : Knows isOrigin s.copies file) :
    exec (requireOrigin isOrigin file) s = (.ok (), s) := by
  obtain ⟨source, hs, ho⟩ := h
  have hof : exec (sourceOf file) s = (.ok source, s) := by
    rw [exec_sourceOf, hs]
    rfl
  rw [requireOrigin, exec_bind_ok hof, ho]
  rfl

variable (h₀ : s₀.Noted Dir isOrigin dest q)
include h₀

theorem plain_of_gains {New : Location → Prop} (hg : Gains New s₀.tree t) (hr : rel ≠ []) {n : Node}
    (hn : t.node? (q ++ rel) = some n) : n = .directory ∨ ∃ bytes x, n = .file bytes x := by
  cases n with
  | directory => exact .inl rfl
  | file bytes x => exact .inr ⟨bytes, x, rfl⟩
  | link target =>
    rcases h₀.below hr (hg.node?_of_not_file hn (by simp)) with ⟨h, -⟩ | ⟨h, -⟩
    · exact .inl h
    · exact .inr h
  | device =>
    rcases h₀.below hr (hg.node?_of_not_file hn (by simp)) with ⟨h, -⟩ | ⟨h, -⟩
    · exact .inl h
    · exact .inr h

theorem locate_of_gains {New : Location → Prop} (hg : Gains New s₀.tree t)
    (hd : t.node? (q ++ rel) = some .directory) :
    t.locate true (Path.extend dest rel) = .ok (q ++ rel, some .directory) := by
  have hdest := hg.grows.locate h₀.dest_at
  rw [hg.grows.directory (FileTree.node?_of_locate h₀.dest_at)] at hdest
  exact (hg.sound h₀.sound).locate_extend hdest hd

theorem locate_name_of_gains {New : Location → Prop} (hg : Gains New s₀.tree t)
    (hd : t.node? (q ++ rel) = some .directory) {name : Text} (hn : Path.IsName name) :
    t.locate true (Path.join (Path.extend dest rel) name) =
      .ok (q ++ rel ++ [name], t.node? (q ++ rel ++ [name])) := by
  refine (hg.sound h₀.sound).locate_join (locate_of_gains h₀ hg hd) hn (.inr fun target hl => ?_)
  rw [append_assoc] at hl
  rcases plain_of_gains h₀ hg (by simp) hl with h | ⟨_, _, h⟩ <;> cases h

variable (hlog : ∀ l ∈ logPath, s₀.tree.has l = true)
  (hplace : ∀ w, place = .inFile w → ∀ p, s₀.tree.locate true w = .ok (p, none) → ¬ deepIn q p)
include hlog hplace

theorem adds_convertOne (hd : s₀.tree.node? (q ++ rel) = some .directory) {f : Text}
    (hn : Path.IsName f) (hf : s₀.tree.has (Path.join (Path.extend dest rel) f)) :
    Adds s₀ (byVisit q rel) (convertOne unchecked o logPath place (Path.extend dest rel) f) Any := by
  refine Adds.bind (Adds.pure (Q := Any) trivial) fun _ _ => (adds_convert hlog hf _).bind fun _ _ => ?_
  refine adds_compare hlog (fun w hw t hg p hp => ?_) fun t hg p hp => ?_
  · exact .inr (hplace w hw p (hg.locate_vacant h₀.sound hp))
  · obtain ⟨other, ho, hs⟩ := Path.exists_stem_join (Path.extend dest rel) hn.2.1
      (show '/' ∉ (".diff" : Text) by decide) (by decide)
    have hv := hg.locate_vacant h₀.sound hp
    rw [hs, locate_name_of_gains h₀ (.refl anywhere _) hd ho] at hv
    exact .inl ⟨other, (Prod.mk.inj (Except.ok.inj hv)).1.symm⟩

omit hlog hplace in
theorem known_of_mem (hs : Onward (fun p => ¬ inside q rel p) s₀ s)
    (hd : s.tree.node? (q ++ rel) = some .directory) {f : Text}
    (hf : f ∈ filesAt s.tree (Path.extend dest rel) (q ++ rel)) :
    Path.IsName f ∧ s₀.tree.has (Path.join (Path.extend dest rel) f) ∧
      Knows isOrigin s₀.copies (Path.join (Path.extend dest rel) f) := by
  rw [filesAt, mem_filter, FileTree.mem_names] at hf
  obtain ⟨⟨n, hn⟩, hnot⟩ := hf
  have hso := hs.gains.sound h₀.sound
  have hna := (hso.parent hn).1
  have hl := locate_name_of_gains h₀ hs.gains hd hna
  have hd₀ := hs.gains.node?_of_not_file hd (by simp)
  -- It is no directory, and it is not new.
  have hfi : ∀ m, s₀.tree.node? (q ++ rel ++ [f]) = some m → m ≠ .directory := by
    rintro m hm rfl
    rw [hs.gains.grows.directory hm] at hl
    rw [FileTree.hasDirectory, FileTree.stat, hl] at hnot
    cases hnot
  cases ho : s₀.tree.node? (q ++ rel ++ [f]) with
  | none => exact absurd ⟨[f], by simp, rfl⟩ (hs.gains.fresh hn ho).1
  | some m =>
    have hl₀ := locate_name_of_gains h₀ (.refl anywhere s₀.tree) hd₀ hna
    rw [ho] at hl₀
    refine ⟨hna, by rw [FileTree.has, FileTree.stat, hl₀]; rfl, ?_⟩
    rw [append_assoc] at ho
    rcases h₀.below (by simp) ho with ⟨rfl, -⟩ | ⟨-, hk⟩
    · rw [← append_assoc] at ho
      exact absurd rfl (hfi _ ho)
    · rwa [Path.extend_concat] at hk

omit hlog hplace in
theorem directory_of_mem (hs : Onward (fun p => ¬ inside q rel p) s₀ s)
    (hdir : s.tree.node? (q ++ rel) = some .directory)
    (hd : d ∈ directoriesAt s.tree (Path.extend dest rel) (q ++ rel)) :
    s.tree.node? (q ++ (rel ++ [d])) = some .directory := by
  rw [directoriesAt, mem_filter, FileTree.mem_names] at hd
  obtain ⟨⟨n, hn⟩, hy⟩ := hd
  have hl := locate_name_of_gains h₀ hs.gains hdir ((hs.gains.sound h₀.sound).parent hn).1
  rw [FileTree.hasDirectory, FileTree.stat, hl, hn] at hy
  rw [← append_assoc, hn]
  simpa [Except.toOption] using hy

theorem agrees_visit (hs : Onward (fun p => ¬ inside q rel p) s₀ s)
    (hd : s.tree.node? (q ++ rel) = some .directory) (directories : List Text) :
    Agrees (byVisit q rel) s (convertVisit (requireOrigin isOrigin) o logPath place (Path.extend dest rel) directories
        (filesAt s.tree (Path.extend dest rel) (q ++ rel)))
      (convertVisit unchecked o logPath place (Path.extend dest rel) directories
        (filesAt s.tree (Path.extend dest rel) (q ++ rel))) := by
  have hall := fun f => known_of_mem (f := f) h₀ hs hd
  have hd₀ := hs.gains.node?_of_not_file hd (by simp)
  replace hs : Onward anywhere s₀ s := hs.mono fun _ _ => trivial
  clear hd
  generalize filesAt s.tree (Path.extend dest rel) (q ++ rel) = files at hall
  refine Agrees.bind ?_ fun _ _ _ _ => .pure directories
  induction files generalizing s with
  | nil => exact .pure ()
  | cons f files ih =>
    obtain ⟨⟨hn, hh, hk⟩, hf⟩ := forall_mem_cons.1 hall
    refine Agrees.bind ?_ fun _ s' _ hs' => ih (hs.trans (hs'.mono fun _ _ => trivial)) hf
    have ha := adds_convertOne (o := o) h₀ hlog hplace hd₀ hn hh s hs
    refine ⟨?_, ha.1⟩
    rw [← hs.copies_eq] at hk
    rw [convertOne, exec_bind_ok (exec_requireOrigin hk)]
    rfl

omit h₀ hlog hplace in
theorem answer_of_convertVisit {check : Text → Job Unit} {directories below : List Text}
    {s' : Session} (h : exec (convertVisit check o logPath place path directories files) s = (.ok below, s')) :
    below = directories := by
  rw [convertVisit, exec_bind] at h
  rcases hf : exec (files.forM (convertOne check o logPath place path)) s with ⟨e | _, s₁⟩
  · rw [hf] at h
    cases h
  · rw [hf] at h
    exact (Except.ok.inj (Prod.mk.inj h).1).symm

theorem agrees_walk (followLinks : Bool) : ∀ (depth : Nat) (rel : Location) (s : Session),
    Onward (fun p => ¬ inside q rel p) s₀ s → s.tree.node? (q ++ rel) = some .directory →
    Agrees (byWalk q rel) s
      (walk followLinks (convertVisit (requireOrigin isOrigin) o logPath place) depth (Path.extend dest rel))
      (walk followLinks (convertVisit unchecked o logPath place) depth (Path.extend dest rel))
  | 0, _, _, _, _ => ⟨rfl, .refl _ _⟩
  | depth + 1, rel, s, hs, hdir => by
    have hat := locate_of_gains h₀ hs.gains hdir
    have hv := agrees_visit (o := o) h₀ hlog hplace hs hdir
      (directoriesAt s.tree (Path.extend dest rel) (q ++ rel))
    have hm := fun d => directory_of_mem (d := d) h₀ hs hdir
    have hn : (directoriesAt s.tree (Path.extend dest rel) (q ++ rel)).Nodup :=
      ((hs.gains.sound h₀.sound).nodup_names _).filter _
    rw [Agrees, Mirroring.exec_walk_succ hat, Mirroring.exec_walk_succ hat]
    refine Agrees.bind (hv.mono fun _ => byWalk_of_byVisit) fun below s₁ hexec hwi => ?_
    have ha : Onward (byVisit q rel) s s₁ := by
      have := hv.2
      rwa [hexec] at this
    obtain rfl := answer_of_convertVisit hexec
    -- What was added so far lies below none of the directories that are left.
    have hl : ∀ d ∈ directoriesAt s.tree (Path.extend dest rel) (q ++ rel),
        Onward (fun p => ¬ inside q (rel ++ [d]) p) s₀ s₁ ∧
          s₁.tree.node? (q ++ (rel ++ [d])) = some .directory := fun d hd =>
      ⟨(hs.mono fun _ h => mt inside_concat h).trans (ha.mono fun _ => not_inside_of_byVisit),
        ha.gains.grows.directory (hm d hd)⟩
    clear hm ha hexec hv hwi
    generalize directoriesAt s.tree (Path.extend dest rel) (q ++ rel) = directories at hn hl
    induction directories generalizing s₁ with
    | nil => exact .pure ()
    | cons d directories ih =>
      obtain ⟨hnew, hn⟩ := nodup_cons.1 hn
      obtain ⟨⟨hd, hdi⟩, ho⟩ := forall_mem_cons.1 hl
      have hw := agrees_walk followLinks depth (rel ++ [d]) s₁ hd hdi
      have hde : Agrees (byWalk q (rel ++ [d])) s₁
          (Mirroring.descend followLinks (convertVisit (requireOrigin isOrigin) o logPath place) depth
            (Path.extend dest rel) d)
          (Mirroring.descend followLinks (convertVisit unchecked o logPath place) depth
            (Path.extend dest rel) d) := by
        rw [Agrees, Mirroring.descend, exec_bind_ok (exec_tree s₁), Mirroring.descend,
          exec_bind_ok (exec_tree s₁), ← Path.extend_concat]
        split
        · exact hw
        · exact Agrees.pure ()
      refine Agrees.bind (hde.mono fun p hp => ?_) fun _ s₂ hexec _ => ih s₂ hn fun e he => ?_
      · exact hp.imp_left inside_concat
      · have ha : Onward (byWalk q (rel ++ [d])) s₁ s₂ := by
          have := hde.2
          rwa [hexec] at this
        have hne : d ≠ e := fun heq => hnew (heq ▸ he)
        exact ⟨(ho e he).1.trans (ha.mono fun _ => not_inside_of_byWalk hne),
          ha.gains.grows.directory (ho e he).2⟩

theorem exec_convertChecking : exec (convertChecking (requireOrigin isOrigin) o logPath place dest) s₀ =
    exec (convertDirectory o logPath place dest) s₀ := by
  rw [convertDirectory_eq]
  have hl : Agrees nowhere s₀ (log logPath ("Beginning into: " ++ dest ++ "\n"))
      (log logPath ("Beginning into: " ++ dest ++ "\n")) := .of_adds (adds_log hlog _) (.refl _ _)
  refine (Agrees.bind (hl.mono fun _ => False.elim) fun _ s he _ => ?_ : Agrees (byWalk q []) s₀ _ _).1
  have hs : Onward nowhere s₀ s := by
    have := hl.2
    rwa [he] at this
  rw [Agrees, exec_bind_ok (exec_tree s), exec_bind_ok (exec_tree s)]
  exact agrees_walk h₀ hlog hplace o.followLinks (walkDepth s.tree) [] s (hs.mono fun _ => False.elim)
    (by rw [append_nil]; exact hs.gains.grows.directory (FileTree.node?_of_locate h₀.dest_at))

end Checking

/-! ## The whole run -/

def convertCopies (check : Text → Job Unit) (o : Options) (logPath : Option Text) (dest : Text) : Job Unit := do
  convertChecking check o logPath (← placeForSeveral o dest) dest

/-- A name that was given for the comparisons does not stand for a new file deep in the destination. -/
def ComparesElsewhere (o : Options) (u : FileTree) (q : Location) : Prop :=
  ∀ name ∈ o.diff, o.diffEach = false → name ≠ Options.unnamedDiff →
    ∀ w ∈ [name, Path.join name comparisonsName], ∀ p, u.locate true w = .ok (p, none) → ¬ deepIn q p

section Run

variable {Dir : FileTree → Location → Prop} {isOrigin : Text → Text → Bool} {dest : Text} {q : Location}
  {s₀ s : Session} {o : Options} {logPath : Option Text}

theorem adds_checkWritable (path : Text) : Adds s₀ nowhere (checkWritable path) Any := by
  refine Adds.tree.bind fun u _ => ?_
  dsimp only
  split
  · exact .pure trivial
  · exact (Adds.print _).bind fun _ _ => .pure trivial

theorem adds_namedPlace (name inDirectory : Text) : Adds s₀ nowhere (namedPlace name inDirectory)
    fun place => ∀ w, place = .inFile w → w ∈ [name, Path.join name inDirectory] := by
  refine Adds.tree.bind fun u _ => ?_
  split
  · refine (adds_checkWritable name).bind fun r _ => ?_
    split
    · exact .pure fun w hw => by simp [ComparisonPlace.inFile.inj hw]
    · exact (Adds.print _).bind fun _ _ => .pure fun w hw => by cases hw
  · refine .pure fun w hw => ?_
    rw [ComparisonPlace.ofName] at hw
    split at hw
    · cases hw
    · simp [ComparisonPlace.inFile.inj hw]

theorem adds_placeForSeveral (o : Options) (dest : Text) : Adds s₀ nowhere (placeForSeveral o dest)
    fun place => ∀ w, place = .inFile w → w = Path.join dest comparisonsName ∨
      ∃ name ∈ o.diff, o.diffEach = false ∧ name ≠ Options.unnamedDiff ∧
        w ∈ [name, Path.join name comparisonsName] := by
  rw [placeForSeveral]
  split
  · exact .pure fun w hw => by cases hw
  next he =>
    cases hd : o.diff with
    | none => exact .pure fun w hw => by cases hw
    | some name =>
      dsimp only
      split
      · exact .pure fun w hw => .inl (ComparisonPlace.inFile.inj hw).symm
      next hn =>
        intro s hs
        obtain ⟨ha, hplace⟩ := adds_namedPlace name comparisonsName s hs
        exact ⟨ha, fun place hexec w hw => .inr ⟨name, rfl, by simpa using he, by simpa using hn,
          hplace place hexec w hw⟩⟩

theorem noted_onward (hD : ∀ t u rel, Grows t u → Dir t rel → Dir u rel)
    (h : s₀.Noted Dir isOrigin dest q) (hs : Onward nowhere s₀ s) : s.Noted Dir isOrigin dest q where
  sound := hs.gains.sound h.sound
  dest_at := by
    have hdest := hs.gains.grows.locate h.dest_at
    rwa [hs.gains.grows.directory (FileTree.node?_of_locate h.dest_at)] at hdest
  below {rel n} hr hn := by
    cases ho : s₀.tree.node? (q ++ rel) with
    | none => exact ((hs.gains.fresh hn ho).1).elim
    | some m =>
      obtain ⟨n', hn', hb⟩ := hs.gains.grows.became ho
      rw [hn] at hn'
      obtain rfl := Option.some.inj hn'
      rw [hs.copies_eq]
      rcases h.below hr ho with ⟨rfl, hd⟩ | ⟨⟨bytes, x, rfl⟩, hk⟩
      · cases hb
        exact .inl ⟨rfl, hD _ _ _ hs.gains.grows hd⟩
      · refine .inr ⟨?_, hk⟩
        cases hb with
        | same => exact ⟨bytes, x, rfl⟩
        | written _ new _ y => exact ⟨new, y, rfl⟩

theorem exec_convertCopies (hD : ∀ t u rel, Grows t u → Dir t rel → Dir u rel)
    (h₀ : s₀.Noted Dir isOrigin dest q) (hlog : ∀ l ∈ logPath, s₀.tree.has l)
    (hn : ComparesElsewhere o s₀.tree q) :
    exec (convertCopies (requireOrigin isOrigin) o logPath dest) s₀ =
      exec (convertCopies unchecked o logPath dest) s₀ := by
  have ha := @adds_placeForSeveral s₀ o dest s₀ (.refl _ _)
  rw [convertCopies, convertCopies, exec_bind, exec_bind]
  rcases hpl : exec (placeForSeveral o dest) s₀ with ⟨e | place, s⟩
  · rfl
  · rw [hpl] at ha
    obtain ⟨hs, hplace⟩ := ha
    refine exec_convertChecking (noted_onward hD h₀ hs) (fun l hl => ?_) fun w hw p hp => ?_
    · exact hs.gains.grows.has (hlog l hl)
    · have hv := hs.gains.locate_vacant h₀.sound hp
      rcases hplace place rfl w hw with rfl | ⟨name, hna, he, hne, hw⟩
      · have hro : s₀.tree.node? (q ++ []) = some .directory := by
          rw [append_nil, FileTree.node?_of_locate h₀.dest_at]
        have hlo := locate_name_of_gains h₀ (.refl anywhere s₀.tree) hro
          (show Path.IsName comparisonsName by decide)
        rw [Path.extend, foldl_nil, hv] at hlo
        obtain ⟨rfl, -⟩ := Prod.mk.inj (Except.ok.inj hlo)
        rintro ⟨r, hr, heq⟩
        rw [append_nil] at heq
        rw [← append_cancel_left heq] at hr
        simp at hr
      · exact hn name hna he hne w hw p hv

theorem exec_bind_congr {α β : Type} {job : Job α} {f g : α → Job β}
    (h : ∀ a s', exec job s = (.ok a, s') → exec (f a) s' = exec (g a) s') :
    exec (job >>= f) s = exec (job >>= g) s := by
  rw [exec_bind, exec_bind]
  rcases he : exec job s with ⟨e | a, s'⟩
  · rfl
  · exact h a s' he

theorem copyDirectory_steps {r : Except Stop Unit} (ht : s₀.tree.Sound)
    (h : exec (copyDirectory o path dest) s₀ = (r, s)) :
    FileTree.Steps (fun _ => True) s₀.tree s.tree :=
  (copyDirectory_within ht o (fun _ _ => trivial) fun _ _ _ _ => trivial).steps h

theorem exec_readListing_eq_ok {listing : Listing} (h : exec (readListing path) s₀ = (.ok listing, s)) :
    s = s₀ ∧ ∃ bytes, s₀.tree.read path = .ok bytes ∧ Listing.ofBytes bytes = .ok listing := by
  rw [readListing, exec_bind_ok (exec_tree s₀)] at h
  cases hr : s₀.tree.read path with
  | error e =>
    rw [hr] at h
    cases h
  | ok bytes =>
    rw [hr] at h
    cases hli : Listing.ofBytes bytes with
    | error e =>
      dsimp only at h
      rw [hli] at h
      cases h
    | ok l =>
      dsimp only at h
      rw [hli] at h
      obtain ⟨hl, rfl⟩ := Prod.mk.inj h
      exact ⟨rfl, bytes, rfl, hli.trans (congrArg Except.ok (Except.ok.inj hl))⟩

variable {t₁ : FileTree} (ht : s₀.tree.Sound) (hmade : s₀.tree.makeDirectories dest = (t₁, none))
  (hdest : t₁.locate true dest = .ok (q, some .directory)) (hempty : t₁.names q = [])
include ht hmade hdest hempty

theorem noted_copyDirectory (hsub : o.noSubdirectories = false) (hp : path ≠ [])
    (hsl : path.endsWith ['/'] = dest.endsWith ['/'])
    (hexec : exec (copyDirectory o path dest) s₀ = (.ok (), s)) (ho : s.tree.SpelledOnce path) :
    s.Noted (sourceDirectory path) (mirrored path dest) dest q := by
  have ht₁ : t₁.Sound := by
    have hs := FileTree.makeDirectories_steps (W := fun _ => True) s₀.tree dest
    rw [hmade] at hs
    exact hs.sound ht
  rw [copyDirectory, exec_bind_ok (exec_makeDestination hmade s₀.printed s₀.copies), hsub,
    if_neg Bool.false_ne_true] at hexec
  replace hexec := (exec_bind_ok (exec_tree _)).symm.trans hexec
  refine noted_walk hp hsl ho o.followLinks _ [] _ s (.of_empty ht₁ hdest hempty _ _) ?_ hexec (.refl _)
  rw [append_nil, FileTree.node?_of_locate hdest]

theorem noted_copyListed (hn : s₀.tree.has dest = false) (he : exec (copyListed dest files) s₀ = (.ok (), s))
    (hf : ∀ f ∈ files, s.tree.hasFile f → s₀.tree.hasFile f) :
    s.Noted (fun _ _ => False) (lastNamed s₀.tree files dest) dest q := by
  have hs := FileTree.makeDirectories_steps (W := fun _ => True) s₀.tree dest
  rw [hmade] at hs
  rw [copyListed_eq, exec_bind_ok (exec_tree s₀), hn, Bool.not_false, if_pos rfl,
    exec_bind_ok (exec_makeDestination hmade s₀.printed s₀.copies)] at he
  exact noted_copyAll files [] _ s hf hs.touches.grows
    (.of_empty (hs.sound ht) hdest hempty _ _) he (.refl _)

omit ht hmade hdest hempty in
theorem comparesElsewhere_of_noted (h : s.Noted (fun _ _ => False) isOrigin dest q) :
    ComparesElsewhere o s.tree q := by
  rintro name - - - w - p hp ⟨r, hr, rfl⟩
  obtain ⟨dir, last, hpa, -, hd⟩ := h.sound.locate_vacant hp
  have hfr : q ++ r.dropLast = dir := by
    have hne : r ≠ [] := by
      rintro rfl
      simp at hr
    rw [← dropLast_append_of_ne_nil hne, hpa, dropLast_concat]
  have hre : r.dropLast ≠ [] := by
    intro hn
    have := congrArg List.length hn
    rw [length_dropLast, length_nil] at this
    omega
  rw [← hfr] at hd
  rcases h.below hre hd with ⟨-, hf⟩ | ⟨⟨_, _, hfi⟩, -⟩
  · exact hf
  · cases hfi

end Run

end Job

open Job in
/-- **Every file that is converted is known to the table**, with the file it was copied from: the run that
asks the table before each conversion does the same as the run that does not ask. -/
theorem originals_known {o : Options} {logPath : Option Text} {path out dest : Text} {s : Session}
    {t₁ : FileTree} {q : Location} (ht : s.tree.Sound) (hlog : ∀ l ∈ logPath, s.tree.has l = true)
    (hmade : s.tree.makeDirectories dest = (t₁, none))
    (hdest : t₁.locate true dest = .ok (q, some .directory)) (hempty : t₁.names q = []) :
    (dest = (if out == path then o.target.directoryFor path else out) → o.noSubdirectories = false →
      path ≠ [] → path.endsWith ['/'] = dest.endsWith ['/'] →
      (exec (copyDirectory o path dest) s).2.tree.SpelledOnce path →
      ComparesElsewhere o (exec (copyDirectory o path dest) s).2.tree q →
      exec (runDirectory o logPath path out) s = exec (copyDirectory o path dest >>= fun _ =>
        convertCopies (requireOrigin (mirrored path dest)) o logPath dest) s) ∧
    (dest = (if out == path then o.target.listingDirectory else out) → s.tree.has dest = false →
      (∀ bytes listing, s.tree.read path = .ok bytes → Listing.ofBytes bytes = .ok listing →
        ∀ f ∈ listing.files, (exec (copyListed dest listing.files) s).2.tree.hasFile f = true →
          s.tree.hasFile f = true) →
      exec (runListing o logPath path out) s = exec (readListing path >>= fun listing =>
        copyListed dest listing.files >>= fun _ =>
          convertCopies (requireOrigin (lastNamed s.tree listing.files dest)) o logPath dest) s) := by
  refine ⟨fun hplace hsub hpath hslash honce hnamed => ?_, fun hplace hnew hfound => ?_⟩
  · subst hplace
    refine exec_bind_congr fun _ s₁ hexec => ?_
    rw [hexec] at honce hnamed
    have hnoted := noted_copyDirectory ht hmade hdest hempty hsub hpath hslash hexec honce
    have hgrows := (copyDirectory_steps ht hexec).touches.grows
    exact (exec_convertCopies sourceDirectory_grows hnoted (fun l hl => hgrows.has (hlog l hl)) hnamed).symm
  · subst hplace
    refine exec_bind_congr fun listing s₁ hread => exec_bind_congr fun _ s₂ hexec => ?_
    obtain ⟨rfl, bytes, hbytes, hlisting⟩ := exec_readListing_eq_ok hread
    have hfound := hfound bytes listing hbytes hlisting
    rw [hexec] at hfound
    have hnoted := noted_copyListed ht hmade hdest hempty hnew hexec hfound
    have hgrows := ((copyListed_within ht (fun _ _ => trivial) listing.files).steps hexec).touches.grows
    exact (exec_convertCopies (fun _ _ _ _ => id) hnoted (fun l hl => hgrows.has (hlog l hl))
      (comparesElsewhere_of_noted hnoted)).symm

/-- A directory `s` with two sources of one name, one of them deeper, and a list `l` of both. -/
def twins : FileTree where
  entries := [([['s']], .directory), ([['s'], "a.py"], .file [] false), ([['s'], ['t']], .directory),
    ([['s'], ['t'], "a.py"], .file [] false), ([['l']], .file (encodeUtf8 "/s/a.py\n/s/t/a.py\n") false)]
  here := []

/-- The options of a run with a comparison beside each file. -/
def besideRun : Options := ⟨"/s", false, false, none, none, true, true, .new⟩

open Job in
theorem originals_known_twins : exec (runDirectory besideRun none "/s" "/e") ⟨twins, [], []⟩ =
        exec (copyDirectory besideRun "/s" "/e" >>= fun _ =>
          convertCopies (requireOrigin (mirrored "/s" "/e")) besideRun none "/e") ⟨twins, [], []⟩ ∧
      exec (runListing besideRun none "/l" "/e") ⟨twins, [], []⟩ =
        exec (readListing "/l" >>= fun listing => copyListed "/e" listing.files >>= fun _ =>
          convertCopies (requireOrigin (lastNamed twins listing.files "/e")) besideRun none "/e")
          ⟨twins, [], []⟩ := by
  have hcopied : (exec (copyDirectory besideRun "/s" "/e") ⟨twins, [], []⟩).2.tree =
      ⟨twins.entries ++ [([['e']], .directory), ([['e'], ['t']], .directory),
        ([['e'], "a.py"], .file [] false), ([['e'], ['t'], "a.py"], .file [] false)], []⟩ := by rfl
  have honce : (exec (copyDirectory besideRun "/s" "/e") ⟨twins, [], []⟩).2.tree.SpelledOnce "/s" := by
    rw [hcopied]
    refine @FileTree.Sound.spelledOnce _ (by decide) "/s" [['s']] (by decide) (fun rel n => ?_) fun rel => ?_
    · exact FileTree.forall_node? (P := fun _ n => n.isLink = false) rfl (by decide)
    · exact FileTree.forall_node? (P := fun p _ => (Path.behind "/s" (p.drop 1)).has "/s" = false)
        (by decide) (by decide)
  obtain ⟨hdirectory, -⟩ := @originals_known besideRun none "/s" "/e" "/e" ⟨twins, [], []⟩
    (twins.put [['e']] .directory) [['e']] (by decide) (by simp) (by decide) (by decide) (by decide)
  obtain ⟨-, hlisting⟩ := @originals_known besideRun none "/l" "/e" "/e" ⟨twins, [], []⟩
    (twins.put [['e']] .directory) [['e']] (by decide) (by simp) (by decide) (by decide) (by decide)
  have hbytes : twins.read "/l" = .ok (encodeUtf8 "/s/a.py\n/s/t/a.py\n") := by decide
  have hlisted : Listing.ofBytes (encodeUtf8 "/s/a.py\n/s/t/a.py\n") =
      .ok ⟨["/s/a.py", "/s/t/a.py"], ["/s", "/s/t"]⟩ := by decide
  have hthere : ∀ f ∈ (["/s/a.py", "/s/t/a.py"] : List Text), twins.hasFile f = true := by decide
  refine ⟨hdirectory rfl rfl (by decide) (by decide) honce (by rintro name hname; cases hname),
    hlisting rfl (by decide) fun bytes listing hread hlisting f hf _ => hthere f ?_⟩
  obtain rfl := Except.ok.inj (hbytes.symm.trans hread)
  obtain rfl := Except.ok.inj (hlisted.symm.trans hlisting)
  exact hf

open Job in
/-- Without the directories below it, the copies of a directory are all noted under the destination, and
the first file that is converted is not known. -/
theorem flat_copies_unknown :
    (exec (runDirectory { besideRun with noSubdirectories := true } none "/s" "/e") ⟨twins, [], []⟩).1 =
      .error (.fail (.unknownName "/e/a.py")) := by
  decide

end QtMigration
