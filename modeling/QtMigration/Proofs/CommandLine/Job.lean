import QtMigration.CommandLine.Copying
import QtMigration.Proofs.FileTree.Follow

/-!
# Proofs/CommandLine/Job — what a job does to the tree

`exec` runs a job on a session; its equations are those of the jobs from which the others are built.
-/

namespace QtMigration

open FileTree (Steps)

namespace Job

variable {α β : Type} {s : Session}

def exec (job : Job α) (s : Session) : Except Stop α × Session := (ExceptT.run job).run s

theorem exec_bind (job : Job α) (f : α → Job β) (s : Session) : exec (job >>= f) s = match exec job s with
      | (.ok a, s') => exec (f a) s'
      | (.error e, s') => (.error e, s') := by
  change (match exec job s with
    | (r, s') => StateT.run (ExceptT.bindCont (fun a => f a) r) s') = _
  rcases exec job s with ⟨_ | _, _⟩ <;> rfl

theorem exec_bind_ok {job : Job α} {f : α → Job β} {a : α} {s' : Session}
    (h : exec job s = (.ok a, s')) : exec (job >>= f) s = exec (f a) s' := by
  rw [exec_bind, h]

theorem exec_tree (s : Session) : exec tree s = (.ok s.tree, s) := rfl

theorem exec_sourceOf (copy : Text) (s : Session) : exec (sourceOf copy) s =
    ((s.copies.lookup copy).elim (.error (.fail (.unknownName copy))) .ok, s) := by
  rw [sourceOf, exec_bind_ok (show exec get s = (.ok s, s) from rfl)]
  cases s.copies.lookup copy <;> rfl

theorem exec_edit (f : FileTree → Except FileFault FileTree) (s : Session) : exec (edit f) s = match f s.tree with
      | .ok t => (.ok (), { s with tree := t })
      | .error e => (.error (.fail (.file e)), s) := by
  rw [edit, exec_bind_ok (exec_tree s)]
  cases f s.tree <;> rfl

theorem exec_copyFile (source dest copy : Text) (s : Session) :
    exec (copyFile source dest copy) s = match s.tree.copy source dest with
      | .ok t => (.ok (), { s with tree := t, copies := (copy, source) :: s.copies })
      | .error e => (.error (.fail e), s) := by
  rw [copyFile, exec_bind_ok (exec_tree s), exec_bind]
  cases s.tree.copy source dest <;> rfl

theorem exec_makeDirectories (path : Text) (s : Session) : exec (makeDirectories path) s =
      (.ok (s.tree.makeDirectories path).2, { s with tree := (s.tree.makeDirectories path).1 }) := rfl

theorem exec_makeDestination {t t₁ : FileTree} {dest : Text} (hm : t.makeDirectories dest = (t₁, none))
    (printed : Text) (copies : List (Text × Text)) :
    exec (makeDestination dest) ⟨t, printed, copies⟩ = (.ok (), ⟨t₁, printed, copies⟩) := by
  rw [makeDestination, exec_bind_ok (exec_makeDirectories dest _), hm]
  rfl

/-! ## Jobs that write only certain paths -/

/-- **The job writes only the paths `W`, and its answer satisfies `Q`.** -/
def Within (W : Text → Prop) (t : FileTree) (job : Job α) (Q : α → Prop) : Prop :=
  ∀ s, Steps W t s.tree → Steps W t (exec job s).2.tree ∧ ∀ a, (exec job s).1 = .ok a → Q a

variable {W : Text → Prop} {t : FileTree} {Q : α → Prop} {R : β → Prop} {job : Job α}

namespace Within

abbrev Any : α → Prop := fun _ => True

theorem pure {a : α} (h : Q a) : Within W t (pure a) Q := fun _ hs =>
  ⟨hs, fun _ hb => Except.ok.inj hb ▸ h⟩

theorem bind {f : α → Job β} (h : Within W t job Q) (hf : ∀ a, Q a → Within W t (f a) R) :
    Within W t (job >>= f) R := by
  intro s hs
  obtain ⟨hst, ha⟩ := h s hs
  rw [exec_bind]
  rcases he : exec job s with ⟨e | a, s'⟩
  · rw [he] at hst
    exact ⟨hst, fun b hb => by cases hb⟩
  · rw [he] at hst ha
    exact hf a (ha a rfl) s' hst

theorem mono {Q' : α → Prop} (h : Within W t job Q) (hQ : ∀ a, Q a → Q' a) : Within W t job Q' :=
  fun s hs => ⟨(h s hs).1, fun a ha => hQ a ((h s hs).2 a ha)⟩

theorem map {f : α → β} (h : Within W t job Q) (hf : ∀ a, Q a → R (f a)) : Within W t (f <$> job) R := by
  rw [map_eq_pure_bind]
  exact h.bind fun a ha => pure (hf a ha)

theorem fail (f : Failure) : Within W t (fail f) Q := fun _ hs => ⟨hs, fun a ha => by cases ha⟩

theorem leave : Within W t (throw .leave) Q := fun _ hs => ⟨hs, fun a ha => by cases ha⟩

theorem print (text : Text) : Within W t (print text) Any := fun _ hs => ⟨hs, fun _ _ => trivial⟩

theorem leaveWith (text : Text) : Within W t (leaveWith text) Q := (print text).bind fun _ _ => leave

theorem tree : Within W t tree (Steps W t) := fun _ hs => ⟨hs, fun _ ha => Except.ok.inj ha ▸ hs⟩

theorem edit {f : FileTree → Except FileFault FileTree}
    (h : ∀ t t' : FileTree, f t = .ok t' → Steps W t t') : Within W t (edit f) Any := by
  intro s hs
  refine ⟨?_, fun _ _ => trivial⟩
  rw [exec_edit]
  cases hf : f s.tree with
  | ok t' => exact hs.trans (h s.tree t' hf)
  | error e => exact hs

theorem copyFile {source dest copy : Text} (ht : t.Sound)
    (h : ∀ u : FileTree, Path.IsName (Path.baseName source) → W (u.copyPath source dest)) :
    Within W t (copyFile source dest copy) Any := by
  intro s hs
  refine ⟨?_, fun _ _ => trivial⟩
  rw [exec_copyFile]
  cases hc : s.tree.copy source dest with
  | ok t' =>
    obtain ⟨bytes, -, -, hr, -, -⟩ := FileTree.copy_eq_ok hc
    obtain ⟨p, n, hn, hp⟩ := FileTree.locate_of_read hr
    exact hs.trans (FileTree.copy_steps (h s.tree ((hs.sound ht).isName_baseName hp hn)) hc)
  | error e => exact hs

theorem makeDirectories (path : Text) : Within W t (makeDirectories path) Any := fun s hs =>
  ⟨hs.trans (FileTree.makeDirectories_steps s.tree path), fun _ _ => trivial⟩

theorem sourceOf (copy : Text) : Within W t (sourceOf copy) Any := by
  intro s hs
  refine ⟨?_, fun _ _ => trivial⟩
  rw [exec_sourceOf]
  exact hs

theorem forM {γ : Type} {f : γ → Job PUnit} : ∀ {l : List γ}, (∀ a ∈ l, Within W t (f a) Any) →
    Within W t (l.forM f) Any
  | [], _ => pure trivial
  | a :: _, h => (h a List.mem_cons_self).bind fun _ _ => forM fun b hb => h b (List.mem_cons_of_mem a hb)

theorem walk {followLinks : Bool} {visit : Text → List Text → List Text → Job (List Text)}
    {P : Text → Prop} (ht : t.Sound) (hP : ∀ path name, P path → Path.IsName name → P (Path.join path name))
    (hv : ∀ path directories files, P path → (∀ d ∈ directories, Path.IsName d) → (∀ f ∈ files, Path.IsName f) →
      Within W t (visit path directories files) fun below => ∀ d ∈ below, Path.IsName d) :
    ∀ (depth : Nat) (path : Text), P path → Within W t (walk followLinks visit depth path) Any
  | 0, _, _ => fail _
  | depth + 1, path, hp => by
    refine tree.bind fun u hu => ?_
    cases hna : u.namesAt path with
    | none => exact pure trivial
    | some names =>
      obtain ⟨p, -, rfl⟩ := FileTree.exists_place_of_namesAt hna
      have hname : ∀ name ∈ u.names p, Path.IsName name := by
        intro name hm
        obtain ⟨n, hn⟩ := FileTree.mem_names.1 hm
        exact ((hu.sound ht).parent hn).1
      have hs : ∀ (keep : Text → Bool), ∀ name ∈ (u.names p).filter keep, Path.IsName name :=
        fun keep name hm => hname name (List.mem_of_mem_filter hm)
      refine (hv path _ _ hp (hs _) (hs _)).bind fun below hb => ?_
      refine forM fun name hm => tree.bind fun u _ => ?_
      split
      · exact walk ht hP hv depth _ (hP path name hp (hb name hm))
      · exact pure trivial

end Within

end Job

end QtMigration
