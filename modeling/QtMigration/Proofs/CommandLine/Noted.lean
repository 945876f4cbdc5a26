import QtMigration.Proofs.CommandLine.Gains
import QtMigration.Proofs.CommandLine.Listed

/-!
# Proofs/CommandLine/Noted — the table of the copies

The copying of a directory and that of a list note for each copy where it came from, under a path that they
put together themselves.
-/

namespace QtMigration

open List

open FileTree (Grows)

variable {u : FileTree} {f path : Text}

/-- The table says of a file that it was copied from one that `isOrigin` accepts. -/
def Knows (isOrigin : Text → Text → Bool) (copies : List (Text × Text)) (file : Text) : Prop :=
  ∃ source, copies.lookup file = some source ∧ isOrigin file source = true

/-- **The table knows every file below the destination.** -/
structure Session.Noted (Dir : FileTree → Location → Prop) (isOrigin : Text → Text → Bool) (dest : Text)
    (q : Location) (s : Session) : Prop where
  sound : s.tree.Sound
  dest_at : s.tree.locate true dest = .ok (q, some .directory)
  below : ∀ {rel n}, rel ≠ [] → s.tree.node? (q ++ rel) = some n →
    n = .directory ∧ Dir s.tree rel ∨
      (∃ bytes x, n = .file bytes x) ∧ Knows isOrigin s.copies (Path.extend dest rel)

namespace Path

variable {base source dest : Text} {rel rel' : Location}

theorem extend_inj (hb : base ≠ []) (hrel : ∀ n ∈ rel, IsName n) (hrel' : ∀ n ∈ rel', IsName n)
    (h : extend base rel = extend base rel') : rel = rel' := by
  have hn := congrArg names h
  rw [names_extend hrel hb, names_extend hrel' hb] at hn
  exact append_cancel_left hn

theorem behind_congr (hsource : source ≠ []) (hd : dest ≠ [])
    (hslash : source.endsWith ['/'] = dest.endsWith ['/']) (hrel : ∀ n ∈ rel, IsName n) :
    behind source rel = behind dest rel := by
  cases rel with
  | nil => simp [behind, extend]
  | cons name rel =>
    obtain ⟨hn, hrel⟩ := forall_mem_cons.1 hrel
    have he : ∀ {base : Text}, base ≠ [] → base.isEmpty = false := by simp
    rw [behind, behind, extend_cons hn hrel, extend_cons hn hrel, join_eq hn.2.1,
      join_eq hn.2.1, he hsource, he hd, hslash]
    split <;> rw [append_assoc, drop_left, append_assoc, drop_left]

end Path

namespace FileTree

/-- **The text of the source occurs once** in the path of every directory below it. -/
def SpelledOnce (t : FileTree) (source : Text) : Prop :=
  ∀ rel, (∀ n ∈ rel, Path.IsName n) → t.hasDirectory (Path.extend source rel) = true →
    (Path.behind source rel).has source = false

theorem locate_of_hasDirectory {t : FileTree} (h : t.hasDirectory path) :
    ∃ p, t.locate true path = .ok (p, some .directory) := by
  rw [hasDirectory, stat] at h
  split at h
  next p n hp =>
    have hn : n = .directory := by simpa [Except.toOption] using h
    exact ⟨p, hn ▸ hp⟩
  · cases h
  · cases h

theorem Sound.spelledOnce {t : FileTree} (ht : t.Sound) {source : Text} {root : Location}
    (hsource : t.locate true source = .ok (root, some .directory))
    (hli : ∀ rel n, t.node? (root ++ rel) = some n → n.isLink = false)
    (ho : ∀ rel, t.node? (root ++ rel) = some .directory → (Path.behind source rel).has source = false) :
    t.SpelledOnce source := by
  have hpl : ∀ rel, (∀ n ∈ rel, Path.IsName n) → t.hasDirectory (Path.extend source rel) →
      t.node? (root ++ rel) = some .directory := by
    intro rel
    induction rel using List.reverseRecOn with
    | nil =>
      intro _ _
      rw [append_nil, node?_of_locate hsource]
    | append_singleton rel name ih =>
      intro hn hd
      obtain ⟨hrel, hna⟩ := forall_mem_append.1 hn
      rw [forall_mem_singleton] at hna
      rw [Path.extend_concat] at hd
      obtain ⟨p, hp⟩ := locate_of_hasDirectory hd
      have hne : Path.extend source rel ≠ [] := by
        rw [Path.extend_eq_append hrel]
        exact append_ne_nil_of_left_ne_nil (reached_of_locate hsource).1 _
      obtain ⟨q, hq⟩ := ht.directory_of_locate_join hne hna.1 hna.2.1 hp
      have hb := ih hrel (by rw [hasDirectory, stat, hq]; rfl)
      rw [ht.locate_join (ht.locate_extend hsource hb) hna (.inr fun target hl => ?_)] at hp
      · obtain ⟨-, hno⟩ := Prod.mk.inj (Except.ok.inj hp)
        rw [← append_assoc, hno]
      · rw [append_assoc] at hl
        cases hli _ _ hl
  exact fun rel hn hd => ho rel (hpl rel hn hd)

end FileTree

theorem FileTree.hasDirectory_of_grows {t : FileTree} (h : Grows t u)
    (hd : t.hasDirectory path) : u.hasDirectory path := by
  rw [h.hasDirectory ?_, hd]
  rw [hasDirectory, beq_iff_eq] at hd
  rw [has, hd]
  rfl

namespace Session.Noted

open Job

variable {Dir : FileTree → Location → Prop} {isOrigin isOrigin' : Text → Text → Bool} {dest name : Text}
  {q rel : Location} {s s' : Session} (hDir : ∀ t u rel, Grows t u → Dir t rel → Dir u rel)
  (h : s.Noted Dir isOrigin dest q) (hrel : s.tree.node? (q ++ rel) = some .directory)

include h in
theorem locate_extend (hrel : s.tree.node? (q ++ rel) = some .directory) :
    s.tree.locate true (Path.extend dest rel) = .ok (q ++ rel, some .directory) :=
  h.sound.locate_extend h.dest_at hrel

theorem of_empty {t : FileTree} (ht : t.Sound) (hd : t.locate true dest = .ok (q, some .directory))
    (he : t.names q = []) (printed : Text) (copies : List (Text × Text)) :
    Noted Dir isOrigin dest q ⟨t, printed, copies⟩ where
  sound := ht
  dest_at := hd
  below {rel n} hrel hn := by
    rw [ht.vacant_of_empty he hrel] at hn
    cases hn

include hDir h hrel in
theorem put (hn : Path.IsName name) (hnot : s.tree.node? (q ++ rel ++ [name]) ≠ some .directory) {n : Node}
    {copies : List (Text × Text)} (hg : Grows s.tree (s.tree.put (q ++ rel ++ [name]) n))
    (hnew : n = .directory ∧ Dir (s.tree.put (q ++ rel ++ [name]) n) (rel ++ [name]) ∨
      (∃ bytes x, n = .file bytes x) ∧ Knows isOrigin' copies (Path.extend dest (rel ++ [name])))
    (ho : ∀ file, file ≠ Path.extend dest (rel ++ [name]) → Knows isOrigin s.copies file →
      Knows isOrigin' copies file) :
    Noted Dir isOrigin' dest q ⟨s.tree.put (q ++ rel ++ [name]) n, s.printed, copies⟩ where
  sound := h.sound.put_into (h.locate_extend hrel) hn hnot n
  dest_at := by
    have hd := hg.locate h.dest_at
    rwa [hg.directory (FileTree.node?_of_locate h.dest_at)] at hd
  below {rel' m} hrel' hm := by
    dsimp only at hm ⊢
    by_cases heq : rel' = rel ++ [name]
    · subst heq
      rw [← append_assoc, FileTree.node?_put_self (by simp)] at hm
      rwa [← Option.some.inj hm]
    · rw [FileTree.node?_put_of_ne (by simp) (by simpa using heq)] at hm
      refine (h.below hrel' hm).imp (And.imp_right (hDir _ _ _ hg)) (And.imp_right (ho _ ?_))
      have hna : ∀ n ∈ rel ++ [name], Path.IsName n :=
        forall_mem_append.2 ⟨h.sound.isName hrel, by simpa using hn⟩
      exact mt (Path.extend_inj (FileTree.reached_of_locate h.dest_at).1 (h.sound.isName hm) hna) heq

include hDir h hrel in
theorem copy (hna : Path.IsName name) {source : Text} (hsource : s.tree.hasFile source)
    (hnot : ¬ Dir s.tree (rel ++ [name])) (ho : isOrigin' (Path.extend dest (rel ++ [name])) source)
    (hot : ∀ file src, file ≠ Path.extend dest (rel ++ [name]) → isOrigin file src →
      isOrigin' file src)
    (hexec : exec (copyFile source (Path.join (Path.extend dest rel) name)
      (Path.join (Path.extend dest rel) name)) s = (.ok (), s')) :
    s'.Noted Dir isOrigin' dest q ∧ Grows s.tree s'.tree := by
  obtain ⟨r, bytes, x, hr⟩ := FileTree.locate_of_hasFile hsource
  have hb := h.locate_extend hrel
  have hw : s.tree.Writable (q ++ rel ++ [name]) := by
    intro n hn
    rw [append_assoc] at hn
    rcases h.below (by simp) hn with ⟨-, hd⟩ | ⟨hf, -⟩
    · exact absurd hd hnot
    · exact hf
  have hne : r ≠ q ++ rel ++ [name] := by
    rintro rfl
    obtain ⟨e, he⟩ := h.sound.copy_self hb hna hr
    rw [exec_copyFile, he] at hexec
    cases hexec
  rw [exec_copyFile, h.sound.copy_into hb hna hw hr hne] at hexec
  obtain ⟨-, rfl⟩ := Prod.mk.inj hexec
  have hg := hw.grows bytes x
  rw [← Path.extend_concat]
  refine ⟨h.put hDir hrel hna hw.not_directory hg (.inr ⟨⟨bytes, x, rfl⟩, source, ?_, ho⟩)
    fun file hf => ?_, hg⟩
  · rw [lookup_cons_self]
  · rintro ⟨src, hs, hok⟩
    refine ⟨src, ?_, hot file src hf hok⟩
    rwa [lookup_cons, beq_eq_false_iff_ne.2 hf]

include hDir h hrel in
theorem make (hna : Path.IsName name) (hd : Dir s.tree (rel ++ [name]))
    (he : exec (makeOne (Path.extend dest rel) name) s = (.ok (), s')) :
    s'.Noted Dir isOrigin dest q ∧ Grows s.tree s'.tree ∧
      s'.tree.node? (q ++ rel ++ [name]) = some .directory := by
  have hb := h.locate_extend hrel
  rw [makeOne, exec_bind_ok (exec_makeDirectories _ s)] at he
  cases hn : s.tree.node? (q ++ rel ++ [name]) with
  | some n =>
    have hf := h.sound.makeDirectories_there hb hna hn
    cases hm : (s.tree.makeDirectories (Path.join (Path.extend dest rel) name)).2 with
    | none => exact absurd hm hf
    | some f =>
      rw [hm] at he
      cases he
  | none =>
    rw [h.sound.makeDirectories_into hb hna hn] at he
    obtain ⟨-, rfl⟩ := Prod.mk.inj he
    have hg : Grows s.tree (s.tree.put (q ++ rel ++ [name]) .directory) := .put_new hn _
    exact ⟨h.put hDir hrel hna (by rw [hn]; simp) hg (.inl ⟨rfl, hDir _ _ _ hg hd⟩) fun _ _ => id, hg,
      FileTree.node?_put_self (by simp)⟩

end Session.Noted

namespace Job

open Session (Noted)
open Within (Any)

theorem exec_bind_eq_ok {α β : Type} {job : Job α} {f : α → Job β} {b : β} {s s'' : Session}
    (h : exec (job >>= f) s = (.ok b, s'')) :
    ∃ a s', exec job s = (.ok a, s') ∧ exec (f a) s' = (.ok b, s'') := by
  rw [exec_bind] at h
  rcases he : exec job s with ⟨e | a, s'⟩
  · rw [he] at h
    cases h
  · rw [he] at h
    exact ⟨a, s', rfl, h⟩

theorem Within.steps {α : Type} {job : Job α} {Q : α → Prop} {r : Except Stop α} {s s' : Session}
    {W : Text → Prop} (h : Within W s.tree job Q) (he : exec job s = (r, s')) :
    FileTree.Steps W s.tree s'.tree := by
  have hs := (h s .refl).1
  rwa [he] at hs

theorem exec_forM_invariant {γ : Type} {I : Session → Prop} {Q : γ → Session → Prop} {f : γ → Job Unit} :
    ∀ {l : List γ} {s s' : Session}, (∀ a ∈ l, ∀ s s', I s → exec (f a) s = (.ok (), s') →
      I s' ∧ Q a s' ∧ ∀ b, Q b s → Q b s') → I s → exec (l.forM f) s = (.ok (), s') →
      I s' ∧ (∀ a ∈ l, Q a s') ∧ ∀ b, Q b s → Q b s'
  | [], s, s', _, hs, he => by
    obtain ⟨-, rfl⟩ := Prod.mk.inj he
    exact ⟨hs, by simp, fun _ => id⟩
  | a :: l, s, s', hr, hs, he => by
    obtain ⟨hf, hre⟩ := forall_mem_cons.1 hr
    obtain ⟨_, s₁, he₁, he₂⟩ := exec_bind_eq_ok he
    obtain ⟨hs₁, hQ, hk₁⟩ := hf s s₁ hs he₁
    obtain ⟨hs', ha, hk₂⟩ := exec_forM_invariant hre hs₁ he₂
    exact ⟨hs', forall_mem_cons.2 ⟨hk₂ a hQ, ha⟩, fun b hb => hk₂ b (hk₁ b hb)⟩

/-! ### A directory -/

/-- What stands below the destination as a directory is one below the source. -/
def sourceDirectory (source : Text) (t : FileTree) (rel : Location) : Prop :=
  t.hasDirectory (Path.extend source rel) = true

/-- The original of a file in the copy of a directory has the text of the source where the file has that
of the destination. -/
def mirrored (source dest file original : Text) : Bool := original == source ++ file.drop dest.length

section Directory

variable {source dest : Text} {q rel : Location} {s s' : Session}
  (hsource : source ≠ []) (hslash : source.endsWith ['/'] = dest.endsWith ['/'])
  (h : s.Noted (sourceDirectory source) (mirrored source dest) dest q)
  (hrel : s.tree.node? (q ++ rel) = some .directory)

theorem sourceDirectory_grows (t u : FileTree) (rel : Location) (hg : Grows t u)
    (hd : sourceDirectory source t rel) : sourceDirectory source u rel :=
  FileTree.hasDirectory_of_grows hg hd

include hsource hslash h hrel in
theorem copyPath_eq (ho : (Path.behind source rel).has source = false) :
    Text.replaceAll (Path.extend source rel) source dest = Path.extend dest rel := by
  have hn := h.sound.isName hrel
  rw [Path.extend_eq_append hn, Text.replaceAll_self_append hsource, Text.replaceAll_of_not_has ho,
    Path.behind_congr hsource (FileTree.reached_of_locate h.dest_at).1 hslash hn,
    Path.extend_eq_append hn dest]

include hsource hslash h in
theorem mirrored_extend (hn : ∀ n ∈ rel, Path.IsName n) :
    mirrored source dest (Path.extend dest rel) (Path.extend source rel) := by
  rw [mirrored, beq_iff_eq, Path.extend_eq_append hn, Path.extend_eq_append hn, drop_left,
    Path.behind_congr hsource (FileTree.reached_of_locate h.dest_at).1 hslash hn]

include hsource hslash h hrel in
theorem noted_copySource (hn : Path.IsName f)
    (he : exec (copySource (Path.extend source rel) (Path.extend dest rel) f) s = (.ok (), s')) :
    s'.Noted (sourceDirectory source) (mirrored source dest) dest q ∧ Grows s.tree s'.tree := by
  rw [copySource, exec_bind_ok (exec_tree s)] at he
  cases hk : isSource s.tree (Path.join (Path.extend source rel) f) with
  | error e =>
    rw [hk] at he
    cases he
  | ok b =>
    rw [hk] at he
    cases b with
    | false =>
      obtain ⟨-, rfl⟩ := Prod.mk.inj he
      exact ⟨h, .refl _⟩
    | true =>
      have hs : ∃ bytes x, s.tree.stat (Path.join (Path.extend source rel) f) = .ok (.file bytes x) := by
        rw [isSource] at hk
        split at hk
        · cases hk
        next bytes x hs => exact ⟨bytes, x, hs⟩
        · cases hk
      obtain ⟨bytes, x, hs⟩ := hs
      have hna : ∀ n ∈ rel ++ [f], Path.IsName n :=
        forall_mem_append.2 ⟨h.sound.isName hrel, by simpa using hn⟩
      refine h.copy sourceDirectory_grows hrel hn (by rw [FileTree.hasFile, hs]) ?_ ?_ (fun _ _ _ => id) he
      · rw [sourceDirectory, Path.extend_concat, FileTree.hasDirectory, hs]
        exact Bool.false_ne_true
      · rw [← Path.extend_concat]
        exact mirrored_extend hsource hslash h hna

include hsource hslash h hrel in
theorem noted_copyVisit (ho : (Path.behind source rel).has source = false) {p : Location}
    {kept : List Text} (he : exec (copyVisit source dest (Path.extend source rel)
      (directoriesAt s.tree (Path.extend source rel) p) (filesAt s.tree (Path.extend source rel) p)) s =
        (.ok kept, s')) :
    s'.Noted (sourceDirectory source) (mirrored source dest) dest q ∧
      ∀ d ∈ kept, s'.tree.node? (q ++ (rel ++ [d])) = some .directory := by
  have hna : ∀ name ∈ s.tree.names p, Path.IsName name := by
    intro name hmem
    obtain ⟨n, hn⟩ := FileTree.mem_names.1 hmem
    exact (h.sound.parent hn).1
  rw [copyVisit_eq, copyPath_eq hsource hslash h hrel ho] at he
  obtain ⟨_, s₁, hma, he⟩ := exec_bind_eq_ok he
  obtain ⟨_, s₂, hc, he⟩ := exec_bind_eq_ok he
  obtain ⟨hk, rfl⟩ := Prod.mk.inj he
  obtain rfl := Except.ok.inj hk
  obtain ⟨⟨h₁, hg₁⟩, hm, -⟩ := exec_forM_invariant
    (I := fun s₁ => s₁.Noted (sourceDirectory source) (mirrored source dest) dest q ∧ Grows s.tree s₁.tree)
    (Q := fun d s₁ => s₁.tree.node? (q ++ (rel ++ [d])) = some .directory)
    (fun d hd s₁ s₂ hI he => by
      rw [directoriesAt, mem_filter, mem_filter] at hd
      obtain ⟨⟨hd, hdir⟩, -⟩ := hd
      have hdir₁ : sourceDirectory source s₁.tree (rel ++ [d]) := by
        rw [sourceDirectory, Path.extend_concat]
        exact FileTree.hasDirectory_of_grows hI.2 hdir
      obtain ⟨h₂, hg, hp⟩ := hI.1.make sourceDirectory_grows (hI.2.directory hrel) (hna d hd) hdir₁ he
      rw [append_assoc] at hp
      exact ⟨⟨h₂, hI.2.trans hg⟩, hp, fun _ => hg.directory⟩) ⟨h, .refl _⟩ hma
  obtain ⟨⟨h₂, hg₂⟩, -, -⟩ := exec_forM_invariant
    (I := fun s₂ => s₂.Noted (sourceDirectory source) (mirrored source dest) dest q ∧ Grows s₁.tree s₂.tree)
    (Q := fun _ _ => True)
    (fun f hf s₂ s₃ hI he => by
      have hrel₂ := hI.2.directory (hg₁.directory hrel)
      obtain ⟨h₃, hg⟩ := noted_copySource hsource hslash hI.1 hrel₂ (hna f (mem_of_mem_filter hf)) he
      exact ⟨⟨h₃, hI.2.trans hg⟩, trivial, fun _ => id⟩) ⟨h₁, .refl _⟩ hc
  exact ⟨h₂, fun d hd => hg₂.directory (hm d hd)⟩

theorem walk_copyVisit_within {t : FileTree} (ht : t.Sound) (followLinks : Bool) (depth : Nat) (path : Text) :
    Within (fun _ => True) t (walk followLinks (copyVisit source dest) depth path) Any :=
  Within.walk (P := fun _ => True) ht (fun _ _ _ _ => trivial)
    (fun _ _ _ _ hd hf => copyVisit_within ht (fun _ _ => trivial) hd hf) depth path
    trivial

theorem descend_copyVisit_within {t : FileTree} (ht : t.Sound) (followLinks : Bool) (depth : Nat)
    (path name : Text) : Within (fun _ => True) t
      (Mirroring.descend followLinks (copyVisit source dest) depth path name) Any := by
  refine Within.tree.bind fun _ _ => ?_
  split
  · exact walk_copyVisit_within ht followLinks depth _
  · exact .pure trivial

include hsource hslash in
theorem noted_walk (hon : u.SpelledOnce source) (followLinks : Bool) :
    ∀ (depth : Nat) (rel : Location) (s s' : Session),
    s.Noted (sourceDirectory source) (mirrored source dest) dest q →
    s.tree.node? (q ++ rel) = some .directory →
    exec (walk followLinks (copyVisit source dest) depth (Path.extend source rel)) s = (.ok (), s') →
    Grows s'.tree u → s'.Noted (sourceDirectory source) (mirrored source dest) dest q
  | 0, _, _, _, _, _, hexec, _ => by cases hexec
  | depth + 1, rel, s, s', h, hrel, hexec, hu => by
    have hg := ((walk_copyVisit_within h.sound followLinks (depth + 1) (Path.extend source rel)).steps
      hexec).touches.grows
    cases hn : s.tree.namesAt (Path.extend source rel) with
    | none =>
      rw [walk, exec_bind_ok (exec_tree s), hn] at hexec
      obtain ⟨-, rfl⟩ := Prod.mk.inj hexec
      exact h
    | some names =>
      obtain ⟨p, hp, -⟩ := FileTree.exists_place_of_namesAt hn
      have ht : s.tree.hasDirectory (Path.extend source rel) := by
        rw [FileTree.hasDirectory, FileTree.stat, hp]
        rfl
      have ho := hon rel (h.sound.isName hrel) (FileTree.hasDirectory_of_grows (hg.trans hu) ht)
      rw [Mirroring.exec_walk_succ hp] at hexec
      obtain ⟨kept, s₁, hv, hexec⟩ := exec_bind_eq_ok hexec
      obtain ⟨h₁, hk⟩ := noted_copyVisit hsource hslash h hrel ho hv
      clear hv hg
      induction kept generalizing s₁ with
      | nil =>
        obtain ⟨-, rfl⟩ := Prod.mk.inj hexec
        exact h₁
      | cons d kept ih =>
        obtain ⟨hd, hk⟩ := forall_mem_cons.1 hk
        obtain ⟨_, s₂, hde, hexec⟩ := exec_bind_eq_ok hexec
        have hs := (descend_copyVisit_within h₁.sound followLinks depth _ d).steps hde
        have hg := ((Within.forM fun name _ => descend_copyVisit_within (hs.sound h₁.sound)
          followLinks depth _ name).steps hexec).touches.grows
        have h₂ : s₂.Noted (sourceDirectory source) (mirrored source dest) dest q := by
          rw [Mirroring.descend, exec_bind_ok (exec_tree s₁), ← Path.extend_concat] at hde
          split at hde
          · exact noted_walk hon followLinks depth (rel ++ [d]) s₁ s₂ h₁ hd hde (hg.trans hu)
          · obtain ⟨-, rfl⟩ := Prod.mk.inj hde
            exact h₁
        exact ih s₂ hexec h₂ fun e he => hs.touches.grows.directory (hk e he)

end Directory

/-! ### A list -/

/-- The original of a file among the copies of a list is the last of the listed files that was there and
has its name. -/
def lastNamed (t : FileTree) (files : List Text) (dest file original : Text) : Bool :=
  (files.filter fun f => t.hasFile f && Path.join dest (Path.baseName f) == file).getLast? == some original

section Listing

variable {t : FileTree} {dest : Text} {q : Location}

theorem lastNamed_concat_self (hf : t.hasFile f) (files : List Text) :
    lastNamed t (files ++ [f]) dest (Path.join dest (Path.baseName f)) f := by
  rw [lastNamed, filter_append, filter_cons_of_pos (by simp [hf]), filter_nil, getLast?_concat, beq_self_eq_true]

theorem lastNamed_concat_of_ne {file : Text} (h : t.hasFile f → file ≠ Path.join dest (Path.baseName f))
    (files : List Text) (original : Text) :
    lastNamed t (files ++ [f]) dest file original = lastNamed t files dest file original := by
  have hn : [f].filter (fun f => t.hasFile f && Path.join dest (Path.baseName f) == file) = [] := by
    rw [filter_eq_nil_iff, forall_mem_singleton, Bool.and_eq_true, beq_iff_eq]
    exact fun hb => h hb.1 hb.2.symm
  rw [lastNamed, lastNamed, filter_append, hn, append_nil]

theorem copyOne_within (hu : u.Sound) (f : Text) : Within (fun _ => True) u (copyOne dest f) Any := by
  refine Within.tree.bind fun _ _ => ?_
  split
  · exact .copyFile hu fun _ _ => trivial
  · exact .print _

theorem noted_copyAll : ∀ (left done : List Text) (s s' : Session),
    (∀ f ∈ left, u.hasFile f → t.hasFile f) → Grows t s.tree →
    s.Noted (fun _ _ => False) (lastNamed t done dest) dest q →
    exec (left.forM (copyOne dest)) s = (.ok (), s') → Grows s'.tree u →
    s'.Noted (fun _ _ => False) (lastNamed t (done ++ left) dest) dest q
  | [], done, s, s', _, _, h, he, _ => by
    obtain ⟨-, rfl⟩ := Prod.mk.inj he
    rwa [append_nil]
  | f :: left, done, s, s', hfo, hg, h, he, hu => by
    obtain ⟨hf, hl⟩ := forall_mem_cons.1 hfo
    obtain ⟨_, s₁, ho, he⟩ := exec_bind_eq_ok he
    have hs := (copyOne_within h.sound f).steps ho
    have hg₁ := ((Within.forM fun g _ => copyOne_within (hs.sound h.sound) g).steps he).touches.grows
    have h₁ : s₁.Noted (fun _ _ => False) (lastNamed t (done ++ [f]) dest) dest q := by
      rw [copyOne, exec_bind_ok (exec_tree s)] at ho
      split at ho
      next ht =>
        have hb := hf (hu.hasFile (hg₁.hasFile (hs.touches.grows.hasFile ht)))
        obtain ⟨r, bytes, x, hr⟩ := FileTree.locate_of_hasFile ht
        have hro : s.tree.node? (q ++ []) = some .directory := by
          rw [append_nil, FileTree.node?_of_locate h.dest_at]
        refine (h.copy (fun _ _ _ _ => id) hro (h.sound.isName_baseName hr (by simp)) ht id
          (lastNamed_concat_self hb done) (fun file src hne hok => ?_) ho).1
        rwa [lastNamed_concat_of_ne fun _ => hne]
      next hm =>
        obtain ⟨-, rfl⟩ := Prod.mk.inj ho
        have hsa : lastNamed t (done ++ [f]) dest = lastNamed t done dest := by
          funext file original
          exact lastNamed_concat_of_ne (fun hb => absurd (hg.hasFile hb) hm) _ _
        rw [hsa]
        exact ⟨h.sound, h.dest_at, h.below⟩
    have := noted_copyAll left (done ++ [f]) s₁ s' hl (hg.trans hs.touches.grows) h₁ he hu
    rwa [append_assoc, singleton_append] at this

end Listing

end Job

end QtMigration
