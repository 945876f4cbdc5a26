import QtMigration.Proofs.FileTree.Sound

/-!
# Proofs/FileTree/Follow — following a joined path

A path with one name more leads into the directory to which the path without it leads (`Sound.locate_join`),
and nowhere if that is no directory.
-/

namespace QtMigration

open List

def Node.isLink : Node → Bool
  | .link _ => true
  | _ => false

namespace FileTree

open QtMigration.Path (IsName)

variable {t : FileTree} {p q dir : Location} {n : Node} {follow : Bool} {path name base : Text}
  {ps more : List Text}

/-! ## More parts to follow -/

/-- The trail with more parts behind those that have led so far. -/
def Trail.onward (t : FileTree) (follow : Bool) (more : List Text) : Trail → Trail
  | .reached q => if t.node? q = some .directory then t.advance follow q more else .broken .notADirectory
  | .vacant .. => .broken .missing
  | .broken kind => .broken kind
  | .link d target rest => .link d target (rest ++ more)

theorem Sound.advance_append (ht : t.Sound) (follow : Bool) (hm : more ≠ []) :
    ∀ (ps : List Text) (dir : Location), t.node? dir = some .directory →
    t.advance follow dir (ps ++ more) = (t.advance true dir ps).onward t follow more
  | [], dir, hd => by
    rw [nil_append, FileTree.advance.eq_1 t true, Trail.onward, if_pos hd]
  | part :: rest, dir, hd => by
    have hne : (rest ++ more).isEmpty = false := by simp [hm]
    rw [cons_append, FileTree.advance, FileTree.advance]
    split
    · exact ht.advance_append follow hm rest dir hd
    split
    · exact ht.advance_append follow hm rest _ (ht.node?_dropLast hd)
    -- Behind a thing that is no directory, more parts lead nowhere.
    have he : ∀ trail : Trail, trail.onward t follow more = .broken .notADirectory → Trail.broken .notADirectory =
          (if rest.isEmpty then trail else .broken .notADirectory).onward t follow more := by
      intro trail htr
      split
      · exact htr.symm
      · rfl
    cases hn : t.node? (dir ++ [part]) with
    | none =>
      dsimp only
      rw [hne, if_neg Bool.false_ne_true]
      split <;> rfl
    | some n =>
      cases n with
      | directory => exact ht.advance_append follow hm rest _ hn
      | link target =>
        dsimp only
        rw [hne, Bool.false_and, Bool.not_true, Bool.and_false, if_neg Bool.false_ne_true, if_neg Bool.false_ne_true]
        rfl
      | file bytes x =>
        dsimp only
        rw [hne, if_neg Bool.false_ne_true]
        exact he _ (if_neg (by rw [hn]; simp))
      | device =>
        dsimp only
        rw [hne, if_neg Bool.false_ne_true]
        exact he _ (if_neg (by rw [hn]; simp))

/-- The parts `ps` lead to a directory from which `more` is followed, or they lead to none. -/
def Continues (t : FileTree) (follow : Bool) (links : Nat) (dir : Location) (ps more : List Text) : Prop :=
  (∃ q links', t.travel true links dir ps = .reached q ∧ t.node? q = some .directory ∧
    t.travel follow links dir (ps ++ more) = t.travel follow links' q more) ∨
  ((∃ kind, t.travel follow links dir (ps ++ more) = .broken kind) ∧
    ∀ q, t.travel true links dir ps = .reached q → t.node? q ≠ some .directory)

theorem travel_of_advance {trail : Trail} (h : t.advance follow dir ps = trail)
    (hl : ∀ d target rest, trail ≠ .link d target rest) (links : Nat) :
    t.travel follow links dir ps = trail := by
  cases links <;> rw [FileTree.travel, h] <;> cases trail <;> first | rfl | exact absurd rfl (hl _ _ _)

theorem travel_congr {dir' : Location} {ps' : List Text}
    (h : t.advance follow dir ps = t.advance follow dir' ps') (links : Nat) :
    t.travel follow links dir ps = t.travel follow links dir' ps' := by
  cases links <;> rw [FileTree.travel, FileTree.travel, h]

theorem continues_of_settled
    (ha : t.advance follow dir (ps ++ more) = (t.advance true dir ps).onward t follow more)
    (hl : ∀ d target rest, t.advance true dir ps ≠ .link d target rest) (links : Nat) :
    t.Continues follow links dir ps more := by
  have hf := travel_of_advance rfl hl links
  cases ht : t.advance true dir ps with
  | reached q =>
    rw [ht] at ha hf
    by_cases hq : t.node? q = some .directory
    · rw [Trail.onward, if_pos hq] at ha
      exact .inl ⟨q, links, hf, hq, travel_congr ha links⟩
    · rw [Trail.onward, if_neg hq] at ha
      refine .inr ⟨⟨_, travel_of_advance ha (by simp) links⟩, fun q' hq' => ?_⟩
      rw [hf] at hq'
      rwa [← Trail.reached.inj hq']
  | vacant d name =>
    rw [ht] at ha hf
    refine .inr ⟨⟨_, travel_of_advance ha (by simp [Trail.onward]) links⟩, fun q hq => ?_⟩
    rw [hf] at hq
    cases hq
  | broken kind =>
    rw [ht] at ha hf
    refine .inr ⟨⟨_, travel_of_advance ha (by simp [Trail.onward]) links⟩, fun q hq => ?_⟩
    rw [hf] at hq
    cases hq
  | link d target rest => exact absurd ht (hl d target rest)

theorem Sound.travel_append (ht : t.Sound) (follow : Bool) (hm : more ≠ []) : ∀ (links : Nat) (dir : Location)
    (ps : List Text), (∀ part ∈ ps, part ≠ [] ∧ '/' ∉ part) → t.node? dir = some .directory →
    t.Continues follow links dir ps more := by
  intro links
  induction links with
  | zero =>
    intro dir ps hps hd
    have ha := ht.advance_append follow hm ps dir hd
    cases htr : t.advance true dir ps with
    | link d target rest =>
      rw [htr] at ha
      refine .inr ⟨⟨.tooManyLinks, by rw [FileTree.travel, ha]; rfl⟩, fun q hq => ?_⟩
      rw [FileTree.travel, htr] at hq
      cases hq
    | _ => exact continues_of_settled ha (by simp [htr]) 0
  | succ links ih =>
    intro dir ps hps hd
    have ha := ht.advance_append follow hm ps dir hd
    cases htr : t.advance true dir ps with
    | link d target rest =>
      have hf := ht.advance true ps dir hps hd
      rw [htr] at ha hf
      have ih := ih (FileTree.origin d target) (Path.parts target ++ rest) (fun part hp => ?_)
        (node?_origin hf.1 target)
      · rw [Continues, append_assoc] at ih
        rw [Continues, FileTree.travel, FileTree.travel, htr, ha]
        exact ih
      · rcases mem_append.1 hp with hp | hp
        · exact Path.mem_parts hp
        · exact hf.2 part hp
    | _ => exact continues_of_settled ha (by simp [htr]) (links + 1)

/-! ## Directories -/

theorem reached_of_locate (h : t.locate follow path = .ok (q, some n)) : path ≠ [] ∧
    t.travel follow maxLinks (origin t.here path) (Path.parts path) = .reached q ∧ t.node? q = some n := by
  refine ⟨?_, ?_, node?_of_locate h⟩
  · rintro rfl
    cases h
  · rw [locate] at h
    split at h
    · cases h
    split at h
    next p hp =>
      obtain ⟨rfl, -⟩ := Prod.mk.inj (Except.ok.inj h)
      exact hp
    · cases h
    · cases h
    · cases h

theorem travel_dot (links : Nat) (dir : Location) : t.travel follow links dir [['.']] = .reached dir := by
  cases links <;> rfl

theorem Sound.locate_directory_iff (ht : t.Sound) (hne : path ≠ []) : t.locate true path = .ok (q, some .directory) ↔
      t.travel true maxLinks (FileTree.origin t.here path) (Path.names path) = .reached q ∧
        t.node? q = some .directory := by
  have hp := Path.parts_eq path
  have hdot := ht.travel_append true (cons_ne_nil ['.'] []) maxLinks
    (FileTree.origin t.here path) (Path.names path) (fun _ => Path.mem_names) (node?_origin ht.here path)
  have hs : t.travel true maxLinks (FileTree.origin t.here path) (Path.parts path) = .reached q →
      t.node? q = some .directory →
      t.travel true maxLinks (FileTree.origin t.here path) (Path.names path) = .reached q := by
    intro hr hd
    rw [hp] at hr
    split at hr
    · rcases hdot with ⟨q', links', hq', -, ha⟩ | ⟨⟨kind, ha⟩, -⟩
      · rw [ha, travel_dot] at hr
        rwa [Trail.reached.inj hr] at hq'
      · rw [ha] at hr
        cases hr
    · exact hr
  constructor
  · intro h
    obtain ⟨-, hr, hd⟩ := reached_of_locate h
    exact ⟨hs hr hd, hd⟩
  · rintro ⟨hr, hd⟩
    have hw : t.travel true maxLinks (FileTree.origin t.here path) (Path.parts path) = .reached q := by
      rw [hp]
      split
      · rcases hdot with ⟨q', links', hq', -, ha⟩ | ⟨-, hno⟩
        · rw [hr] at hq'
          rw [ha, travel_dot, Trail.reached.inj hq']
        · exact absurd hd (hno q hr)
      · exact hr
    rw [locate, if_neg (by simpa using hne), hw]
    simp [hd]

theorem Sound.locate_directory_congr (ht : t.Sound) {path' : Text} (hne : path ≠ []) (hne' : path' ≠ [])
    (ha : Path.isAbsolute path' = Path.isAbsolute path) (hn : Path.names path' = Path.names path) :
    t.locate true path' = .ok (q, some .directory) ↔ t.locate true path = .ok (q, some .directory) := by
  rw [ht.locate_directory_iff hne, ht.locate_directory_iff hne', hn, FileTree.origin, ha, FileTree.origin]

/-! ## One name more -/

theorem advance_name (hna : IsName name) : t.advance follow q [name] = match t.node? (q ++ [name]) with
    | none => .vacant q name
    | some .directory => .reached (q ++ [name])
    | some (.link target) => if follow then .link q target [] else .reached (q ++ [name])
    | some _ => .reached (q ++ [name]) := by
  have hd : (name == ['.']) = false := by simpa using hna.2.2.1
  have hup : (name == ['.', '.']) = false := by simpa using hna.2.2.2
  rw [advance]
  change (if (name == ['.']) = true then _ else if (name == ['.', '.']) = true then _ else _) = _
  rw [hd, hup]
  cases hn : t.node? (q ++ [name]) with
  | none => rfl
  | some n =>
    cases n with
    | directory => exact FileTree.advance.eq_1 t follow (q ++ [name])
    | file bytes x => rfl
    | link target => cases follow <;> rfl
    | device => rfl

theorem travel_name (hna : IsName name)
    (hl : follow = false ∨ ∀ target, t.node? (q ++ [name]) ≠ some (.link target)) (links : Nat) :
    t.travel follow links q [name] = match t.node? (q ++ [name]) with
      | none => .vacant q name
      | some _ => .reached (q ++ [name]) := by
  have ha : t.advance follow q [name] = match t.node? (q ++ [name]) with
      | none => .vacant q name
      | some _ => .reached (q ++ [name]) := by
    rw [advance_name hna]
    cases hn : t.node? (q ++ [name]) with
    | none => rfl
    | some n =>
      cases n with
      | link target =>
        rcases hl with rfl | hl
        · rfl
        · exact absurd hn (hl target)
      | _ => rfl
  cases links <;> rw [travel, ha] <;> cases t.node? (q ++ [name]) <;> rfl

theorem Sound.locate_join (ht : t.Sound) (hb : t.locate true base = .ok (q, some .directory)) (hna : IsName name)
    (hl : follow = false ∨ ∀ target, t.node? (q ++ [name]) ≠ some (.link target)) :
    t.locate follow (Path.join base name) = .ok (q ++ [name], t.node? (q ++ [name])) := by
  obtain ⟨hne, -, -⟩ := reached_of_locate hb
  obtain ⟨hr, hd⟩ := (ht.locate_directory_iff hne).1 hb
  have hnil := hna.1
  have hs := hna.2.1
  have hw : t.travel follow maxLinks (FileTree.origin t.here (Path.join base name))
      (Path.parts (Path.join base name)) = match t.node? (q ++ [name]) with
        | none => .vacant q name
        | some _ => .reached (q ++ [name]) := by
    rw [Path.parts_eq, Path.endsWith_join hnil hs, Path.names_join hne hnil hs, FileTree.origin,
      Path.isAbsolute_join hne hs]
    rcases ht.travel_append follow (cons_ne_nil name []) maxLinks (FileTree.origin t.here base)
      (Path.names base) (fun _ => Path.mem_names) (node?_origin ht.here base) with
      ⟨q', links, hq', -, ha⟩ | ⟨-, hno⟩
    · rw [hr] at hq'
      rw [← Trail.reached.inj hq'] at ha
      exact ha.trans (travel_name hna hl links)
    · exact absurd hd (hno q hr)
  rw [locate, if_neg (by simpa using Path.join_ne_nil base hnil hs), hw]
  cases hn : t.node? (q ++ [name]) with
  | none => rfl
  | some n => exact congrArg (fun found => Except.ok (q ++ [name], found)) hn

theorem Sound.locate_extend (ht : t.Sound) (hb : t.locate true base = .ok (q, some .directory))
    {rel : Location} : t.node? (q ++ rel) = some .directory →
      t.locate true (Path.extend base rel) = .ok (q ++ rel, some .directory) := by
  induction rel using List.reverseRecOn with
  | nil =>
    intro _
    rw [append_nil]
    exact hb
  | append_singleton rel name ih =>
    intro h
    rw [← append_assoc] at h ⊢
    obtain ⟨hn, hd⟩ := ht.parent h
    have hl : ∀ target, t.node? (q ++ rel ++ [name]) ≠ some (.link target) := by
      rw [h]
      simp
    rw [Path.extend_concat, ht.locate_join (ih hd) hn (.inr hl), h]

theorem Sound.stat_extend (ht : t.Sound) (hb : t.locate true base = .ok (q, some .directory))
    {rel : Location} (h : t.node? (q ++ rel) = some n) (hl : n.isLink = false) :
    t.stat (Path.extend base rel) = .ok n := by
  rcases eq_nil_or_concat rel with rfl | ⟨rel, name, rfl⟩
  · rw [append_nil, node?_of_locate hb] at h
    rw [← Option.some.inj h]
    change t.stat base = _
    rw [stat, hb]
  · rw [concat_eq_append] at h ⊢
    rw [← append_assoc] at h
    obtain ⟨hn, hd⟩ := ht.parent h
    have hl : ∀ target, t.node? (q ++ rel ++ [name]) ≠ some (.link target) := by
      intro target hta
      rw [h] at hta
      cases hta
      cases hl
    rw [Path.extend_concat, stat, ht.locate_join (ht.locate_extend hb hd) hn (.inr hl), h]

theorem Sound.directory_of_locate_join (ht : t.Sound) (hb : base ≠ []) (hn : name ≠ [])
    (hs : '/' ∉ name) {found : Option Node}
    (h : t.locate follow (Path.join base name) = .ok (p, found)) :
    ∃ q, t.locate true base = .ok (q, some .directory) := by
  rcases ht.travel_append follow (cons_ne_nil name []) maxLinks
    (FileTree.origin t.here base) (Path.names base) (fun _ => Path.mem_names)
    (node?_origin ht.here base) with ⟨q, links, hq, hd, -⟩ | ⟨⟨kind, hbr⟩, -⟩
  · exact ⟨q, (ht.locate_directory_iff hb).2 ⟨hq, hd⟩⟩
  · rw [locate, if_neg (by simpa using Path.join_ne_nil base hn hs), Path.parts_eq,
      Path.endsWith_join hn hs, Path.names_join hb hn hs, FileTree.origin,
      Path.isAbsolute_join hb hs] at h
    rw [← FileTree.origin, if_neg Bool.false_ne_true, hbr] at h
    cases h

theorem Sound.locate_below (ht : t.Sound) {found : Option Node} (hb : t.locate true base = .ok (q, found))
    (hl : ∀ rel target, t.node? (q ++ rel) ≠ some (.link target)) (h : Path.Below base path) :
    ∀ {p found}, t.locate true path = .ok (p, found) → q <+: p := by
  have hne : base ≠ [] := by
    rintro rfl
    cases hb
  induction h with
  | refl =>
    intro p found hp
    rw [hb] at hp
    obtain rfl := (Prod.mk.inj (Except.ok.inj hp)).1
    exact prefix_rfl
  | @join path name h hn ih =>
    intro p found hp
    obtain ⟨q', hq'⟩ := ht.directory_of_locate_join (h.ne_nil hne) hn.1 hn.2.1 hp
    obtain ⟨rel, rfl⟩ := ih hq'
    have hli : ∀ target, t.node? (q ++ rel ++ [name]) ≠ some (.link target) := by
      rw [append_assoc]
      exact hl _
    rw [ht.locate_join hq' hn (.inr hli)] at hp
    rw [← (Prod.mk.inj (Except.ok.inj hp)).1, append_assoc]
    exact prefix_append ..

theorem Sound.same_eq_false_of_below (ht : t.Sound) {found : Option Node}
    (hb : t.locate true base = .ok (q, found))
    (hli : ∀ e ∈ t.entries, Node.isLink e.2 = false) {f : Text}
    (hf : t.locate true f = .ok (p, some n)) (hp : ¬ q <+: p) (h : Path.Below base path) :
    t.same path f = false := by
  have hno : ∀ rel target, t.node? (q ++ rel) ≠ some (.link target) := by
    intro rel target hl
    by_cases hn : q ++ rel = []
    · rw [hn] at hl
      cases hl
    · cases hli _ (mem_entries hn hl)
  rw [same, hf]
  cases hpa : t.locate true path with
  | error kind => rfl
  | ok r =>
    obtain ⟨p', n' | n'⟩ := r
    · rfl
    · have hne : p' ≠ p := by
        rintro rfl
        exact hp (ht.locate_below hb hno h hpa)
      simpa using hne

/-! ## The last name -/

theorem Sound.directory_of_dots (ht : t.Sound) {dots : Text} (hd : dots = ['.'] ∨ dots = ['.', '.'])
    (hps : ∀ part ∈ ps, part ≠ [] ∧ '/' ∉ part) (hdir : t.node? dir = some .directory)
    (h : t.travel follow maxLinks dir (ps ++ [dots]) = .reached p) : t.node? p = some .directory := by
  rcases ht.travel_append follow (cons_ne_nil dots []) maxLinks dir ps hps hdir with
    ⟨q, links, -, hq, ha⟩ | ⟨⟨kind, hb⟩, -⟩
  · rw [ha] at h
    rcases hd with rfl | rfl
    · rw [travel_dot] at h
      rwa [← Trail.reached.inj h]
    · have hup : t.travel follow links q [['.', '.']] = .reached q.dropLast := by cases links <;> rfl
      rw [hup] at h
      rw [← Trail.reached.inj h]
      exact ht.node?_dropLast hq
  · rw [hb] at h
    cases h

theorem Sound.isName_baseName (ht : t.Sound) (h : t.locate true path = .ok (p, some n))
    (hn : n ≠ .directory) : IsName (Path.baseName path) := by
  obtain ⟨hne, hr, hno⟩ := reached_of_locate h
  have he : ∀ {ps dots}, (dots = ['.'] ∨ dots = ['.', '.']) →
      (∀ part ∈ ps, part ≠ [] ∧ '/' ∉ part) → Path.parts path ≠ ps ++ [dots] := by
    intro ps dots hd hps hp
    rw [hp] at hr
    have hdir := ht.directory_of_dots hd hps (node?_origin ht.here path) hr
    rw [hno] at hdir
    exact hn (Option.some.inj hdir)
  have hl : ∀ {name}, Path.baseName path = name → name ≠ [] → '/' ∉ name →
      ∃ ps, (∀ part ∈ ps, part ≠ [] ∧ '/' ∉ part) ∧ Path.parts path = ps ++ [name] := by
    intro name hna hnil hs
    rw [Path.parts_eq]
    rcases Path.exists_baseName path with hb | ⟨front, hf⟩
    · rw [← hb, hna, ← nil_append name, Path.endsWith_append_eq_false hnil hs,
        nil_append, Path.names_of_notMem hnil hs]
      exact ⟨[], by simp, rfl⟩
    · rw [hna] at hf
      rw [hf, append_cons, Path.endsWith_append_eq_false hnil hs, ← append_cons,
        Path.names_append_slash, Path.names_of_notMem hnil hs]
      exact ⟨_, fun _ => Path.mem_names, rfl⟩
  refine ⟨fun hnil => ?_, Path.slash_notMem_baseName path, fun hdot => ?_, fun hd => ?_⟩
  · rcases Path.exists_baseName path with hb | ⟨front, hf⟩
    · exact hne (hb ▸ hnil)
    · rw [hnil] at hf
      refine @he (Path.names path) _ (.inl rfl) (fun _ => Path.mem_names) ?_
      rw [Path.parts_eq, if_pos (Text.endsWith_singleton_iff.2 ⟨front, hf⟩)]
  · obtain ⟨ps, hps, hp⟩ := hl hdot (by simp) (by decide)
    exact he (.inl rfl) hps hp
  · obtain ⟨ps, hps, hp⟩ := hl hd (by simp) (by decide)
    exact he (.inr rfl) hps hp

end FileTree

end QtMigration
