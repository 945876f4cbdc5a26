import QtMigration.Proofs.CommandLine.Mirror
import QtMigration.Proofs.CommandLine.Writes

/-!
# Proofs/CommandLine/Gains — the files that a conversion adds to a tree

A conversion in place makes no directories and no links. What it adds are files: the comparisons, and nothing
else if the log is there.
-/

namespace QtMigration

namespace FileTree

/-- A tree to which nothing but files was added, and these at the places `New` only. -/
structure Gains (New : Location → Prop) (t u : FileTree) : Prop where
  sound : t.Sound → u.Sound
  grows : Grows t u
  fresh : ∀ {p n}, u.node? p = some n → t.node? p = none → New p ∧ ∃ bytes x, n = .file bytes x

namespace Gains

variable {New New' : Location → Prop} {t u v : FileTree} {path : Text} {p : Location} {follow : Bool}

theorem refl (New : Location → Prop) (t : FileTree) : Gains New t t :=
  ⟨id, .refl t, fun hn hno => by rw [hn] at hno; cases hno⟩

theorem mono (h : Gains New t u) (hnew : ∀ p, New p → New' p) : Gains New' t u :=
  ⟨h.sound, h.grows, fun hn hno => (h.fresh hn hno).imp_left (hnew _)⟩

theorem trans (h : Gains New t u) (h' : Gains New u v) : Gains New t v where
  sound ht := h'.sound (h.sound ht)
  grows := h.grows.trans h'.grows
  fresh {p n} hn hnone := by
    cases hu : u.node? p with
    | none => exact h'.fresh hn hu
    | some m =>
      obtain ⟨hp, bytes, x, rfl⟩ := h.fresh hu hnone
      obtain ⟨new, y, hf⟩ := h'.grows.file hu
      rw [hn] at hf
      exact ⟨hp, new, y, Option.some.inj hf⟩

theorem put_file {old new : Bytes} {x y : Bool} (h : t.node? p = some (.file old x)) :
    Gains New t (t.put p (.file new y)) where
  sound ht := by
    rcases List.eq_nil_or_concat p with rfl | ⟨dir, name, rfl⟩
    · cases h
    · rw [List.concat_eq_append] at h ⊢
      obtain ⟨hna, hd⟩ := ht.parent h
      exact ht.put hd hna (by rw [h]; simp) _
  grows := .put_file h
  fresh {q n} hn hnone := by
    have hne : q ≠ p := by
      rintro rfl
      rw [h] at hnone
      cases hnone
    rw [node?_put_of_ne (ne_nil_of_file h) hne, hnone] at hn
    cases hn

theorem put_new (h : t.locate true path = .ok (p, none)) (hp : New p) (bytes : Bytes) (x : Bool) :
    Gains New t (t.put p (.file bytes x)) where
  sound ht := by
    obtain ⟨dir, name, rfl, hna, hd⟩ := ht.locate_vacant h
    exact ht.put hd hna (by rw [node?_of_locate h]; simp) _
  grows := .put_new (node?_of_locate h) _
  fresh {q n} hn hnone := by
    by_cases hq : q = p
    · rw [hq, node?_put_self (ne_nil_of_vacant (node?_of_locate h))] at hn
      exact ⟨hq ▸ hp, bytes, x, (Option.some.inj hn).symm⟩
    · rw [node?_put_of_ne (ne_nil_of_vacant (node?_of_locate h)) hq, hnone] at hn
      cases hn

theorem update {f : Bytes → Bytes} (h : t.update path f = .ok u)
    (hpa : ∀ p, t.locate true path = .ok (p, none) → New p) : Gains New t u := by
  rcases update_cases h with ⟨p, hp, rfl⟩ | ⟨p, old, x, hp, rfl⟩ | rfl
  · exact put_new hp (hpa p hp) _ _
  · exact put_file (node?_of_locate hp)
  · exact refl New u

theorem setExecutable {x : Bool} (h : t.setExecutable path x = .ok u) : Gains New t u := by
  rw [FileTree.setExecutable] at h
  split at h
  · cases h
  · cases h
  next p bytes _ hp =>
    obtain rfl := Except.ok.inj h
    exact put_file (node?_of_locate hp)
  · obtain rfl := Except.ok.inj h
    exact refl New t

theorem node?_of_not_file (h : Gains New t u) {n : Node} (hn : u.node? p = some n)
    (hf : ∀ bytes x, n ≠ .file bytes x) : t.node? p = some n := by
  cases ht : t.node? p with
  | none =>
    obtain ⟨-, bytes, x, rfl⟩ := h.fresh hn ht
    exact absurd rfl (hf bytes x)
  | some m =>
    obtain ⟨n', hn', hb⟩ := h.grows.became ht
    rw [hn] at hn'
    obtain rfl := Option.some.inj hn'
    cases hb with
    | same => rfl
    | written old new x y => exact absurd rfl (hf new y)

theorem vacant (h : Gains New t u) (hp : u.node? p = none) : t.node? p = none := by
  cases ht : t.node? p with
  | none => rfl
  | some m =>
    obtain ⟨n', hn', -⟩ := h.grows.became ht
    rw [hp] at hn'
    cases hn'

/-- **A trail that ends at a vacant place or at a link is the same before**, since it leads through
directories and links only. -/
theorem advance (h : Gains New t u) : ∀ (parts : List Text) (dir : Location),
    (∀ p, u.advance follow dir parts ≠ .reached p) → (∀ kind, u.advance follow dir parts ≠ .broken kind) →
      t.advance follow dir parts = u.advance follow dir parts
  | [], dir, hr, _ => by
    rw [FileTree.advance] at hr
    exact absurd rfl (hr dir)
  | part :: rest, dir, hr, hb => by
    rw [FileTree.advance] at hr hb ⊢
    rw [FileTree.advance]
    split
    next hd =>
      rw [if_pos hd] at hr hb
      exact h.advance rest dir hr hb
    next hd =>
      rw [if_neg hd] at hr hb
      split
      next hup =>
        rw [if_pos hup] at hr hb
        exact h.advance rest dir.dropLast hr hb
      next hup =>
        rw [if_neg hup] at hr hb
        cases hn : u.node? (dir ++ [part]) with
        | none => rw [h.vacant hn]
        | some n =>
          rw [hn] at hr hb
          cases n with
          | directory =>
            rw [h.node?_of_not_file hn (by simp)]
            exact h.advance rest (dir ++ [part]) hr hb
          | link target => rw [h.node?_of_not_file hn (by simp)]
          | device => rw [h.node?_of_not_file hn (by simp)]
          | file bytes x =>
            dsimp only at hr hb
            split at hr
            · exact absurd rfl (hr _)
            next hre =>
              rw [if_neg hre] at hb
              exact absurd rfl (hb _)

theorem travel (h : Gains New t u) {d : Location} {name : Text} : ∀ (links : Nat) (dir : Location)
    (parts : List Text), u.travel follow links dir parts = .vacant d name →
      t.travel follow links dir parts = .vacant d name
  | 0, dir, parts, hv => by
    rw [FileTree.travel] at hv ⊢
    cases ht : u.advance follow dir parts with
    | reached q => rw [ht] at hv; cases hv
    | broken kind => rw [ht] at hv; cases hv
    | link d target rest => rw [ht] at hv; cases hv
    | vacant d' name' =>
      rw [h.advance parts dir (by simp [ht]) (by simp [ht]), ht]
      rwa [ht] at hv
  | links + 1, dir, parts, hv => by
    rw [FileTree.travel] at hv ⊢
    cases ht : u.advance follow dir parts with
    | reached q => rw [ht] at hv; cases hv
    | broken kind => rw [ht] at hv; cases hv
    | link d target rest =>
      rw [h.advance parts dir (by simp [ht]) (by simp [ht]), ht]
      rw [ht] at hv
      exact h.travel links _ _ hv
    | vacant d' name' =>
      rw [h.advance parts dir (by simp [ht]) (by simp [ht]), ht]
      rwa [ht] at hv

theorem locate_vacant (h : Gains New t u) (ht : t.Sound) (hp : u.locate follow path = .ok (p, none)) :
    t.locate follow path = .ok (p, none) := by
  have hu := h.sound ht
  have hf := hu.travel follow maxLinks (FileTree.origin u.here path) (Path.parts path)
    (fun _ => Path.mem_parts) (node?_origin hu.here path)
  rw [locate] at hp ⊢
  rw [h.grows.here_eq] at hp hf
  split at hp
  · cases hp
  next hpa =>
    rw [if_neg hpa]
    cases htr : u.travel follow maxLinks (FileTree.origin t.here path) (Path.parts path) with
    | reached q =>
      rw [htr] at hp hf
      obtain ⟨n, hn⟩ := hf
      obtain ⟨-, hno⟩ := Prod.mk.inj (Except.ok.inj hp)
      rw [hn] at hno
      cases hno
    | vacant d name =>
      rw [h.travel _ _ _ htr]
      rwa [htr] at hp
    | broken kind => rw [htr] at hp; cases hp
    | link d target rest => rw [htr] at hp; cases hp

end Gains

theorem Grows.has {t u : FileTree} {path : Text} (h : Grows t u) (hpa : t.has path) : u.has path := by
  obtain ⟨p, n, hp⟩ := locate_of_has hpa
  obtain ⟨n', hn', -⟩ := h.became (node?_of_locate hp)
  rw [FileTree.has, stat, h.locate hp, hn']
  rfl

theorem not_vacant_of_has {t : FileTree} {path : Text} (h : t.has path) {p : Location} :
    t.locate true path ≠ .ok (p, none) := by
  obtain ⟨q, n, hq⟩ := locate_of_has h
  rw [hq]
  simp

end FileTree

/-! ## Jobs that add files only at certain places -/

/-- A session with the same table of copies, to the tree of which files were added at the places `New`. -/
structure Session.Onward (New : Location → Prop) (s s' : Session) : Prop where
  copies_eq : s'.copies = s.copies
  gains : s.tree.Gains New s'.tree

namespace Session.Onward

variable {New New' : Location → Prop} {s s' s'' : Session}

theorem refl (New : Location → Prop) (s : Session) : Onward New s s := ⟨rfl, .refl New s.tree⟩

theorem mono (h : Onward New s s') (hn : ∀ p, New p → New' p) : Onward New' s s' :=
  ⟨h.copies_eq, h.gains.mono hn⟩

theorem trans (h : Onward New s s') (h' : Onward New s' s'') : Onward New s s'' :=
  ⟨h'.copies_eq.trans h.copies_eq, h.gains.trans h'.gains⟩

end Session.Onward

abbrev FileTree.anywhere (_ : Location) : Prop := True

abbrev FileTree.nowhere (_ : Location) : Prop := False

namespace Job

open FileTree (Gains Grows anywhere nowhere)
open Session (Onward)

variable {α β : Type}

/-- **Behind `s₀`, the job adds files only at the places `New`**, and its answer satisfies `Q`. -/
def Adds (s₀ : Session) (New : Location → Prop) (job : Job α) (Q : α → Prop) : Prop :=
  ∀ s, Onward anywhere s₀ s → Onward New s (exec job s).2 ∧ ∀ a, (exec job s).1 = .ok a → Q a

namespace Adds

open Within (Any)

variable {s₀ : Session} {New : Location → Prop} {Q : α → Prop} {R : β → Prop} {job : Job α}

theorem pure {a : α} (h : Q a) : Adds s₀ New (pure a) Q := fun s _ =>
  ⟨.refl New s, fun _ hb => Except.ok.inj hb ▸ h⟩

theorem bind {f : α → Job β} (h : Adds s₀ New job Q) (hf : ∀ a, Q a → Adds s₀ New (f a) R) :
    Adds s₀ New (job >>= f) R := by
  intro s hs
  obtain ⟨hst, ha⟩ := h s hs
  rw [exec_bind]
  rcases he : exec job s with ⟨e | a, s'⟩
  · rw [he] at hst
    exact ⟨hst, fun b hb => by cases hb⟩
  · rw [he] at hst ha
    obtain ⟨hst', ha'⟩ := hf a (ha a rfl) s' (hs.trans (hst.mono fun _ _ => trivial))
    exact ⟨hst.trans hst', ha'⟩

theorem fail (f : Failure) : Adds s₀ New (fail f) Q := fun s _ => ⟨.refl New s, fun a ha => by cases ha⟩

theorem print (text : Text) : Adds s₀ New (print text) Any := fun s _ =>
  ⟨⟨rfl, .refl New s.tree⟩, fun _ _ => trivial⟩

theorem tree : Adds s₀ New tree (Gains anywhere s₀.tree) := fun s hs =>
  ⟨.refl New s, fun _ ha => Except.ok.inj ha ▸ hs.gains⟩

theorem sourceOf (copy : Text) : Adds s₀ New (sourceOf copy) Any := by
  intro s _
  rw [exec_sourceOf]
  exact ⟨.refl New s, fun _ _ => trivial⟩

theorem edit {f : FileTree → Except FileFault FileTree}
    (h : ∀ t u, Gains anywhere s₀.tree t → f t = .ok u → Gains New t u) : Adds s₀ New (edit f) Any := by
  intro s hs
  refine ⟨?_, fun _ _ => trivial⟩
  rw [exec_edit]
  cases hf : f s.tree with
  | ok u => exact ⟨rfl, h s.tree u hs.gains hf⟩
  | error e => exact .refl New s

theorem forM {γ : Type} {f : γ → Job PUnit} : ∀ {l : List γ}, (∀ a ∈ l, Adds s₀ New (f a) Any) →
    Adds s₀ New (l.forM f) Any
  | [], _ => pure trivial
  | a :: _, h => (h a List.mem_cons_self).bind fun _ _ => forM fun b hb => h b (List.mem_cons_of_mem a hb)

end Adds

section Conversion

open Within (Any)

variable {s₀ : Session} {New : Location → Prop} {logPath : Option Text} {source dest path : Text}

theorem adds_update (h : s₀.tree.has path) (f : FileTree → Bytes → Bytes) :
    Adds s₀ New (edit fun t => t.update path (f t)) Any :=
  .edit fun _ _ hg hu => .update hu fun _ hp => absurd hp (FileTree.not_vacant_of_has (hg.grows.has h))

variable (hlog : ∀ l ∈ logPath, s₀.tree.has l = true)
include hlog

theorem adds_log (message : Text) : Adds s₀ New (log logPath message) Any := by
  cases logPath with
  | none => exact .pure trivial
  | some l => exact adds_update (hlog l rfl) fun _ old => old ++ encodeUtf8 (message ++ ['\n'])

theorem adds_play (hd : s₀.tree.has dest) (e : Event) : Adds s₀ New (play logPath source dest e) Any := by
  cases e with
  | say message => exact (Adds.print _).bind fun _ _ => adds_log hlog message
  | print text => exact .print text
  | save bytes =>
    exact (adds_update hd fun _ _ => bytes).bind fun _ _ => .edit fun _ _ _ hu => .setExecutable hu

theorem adds_convert (hd : s₀.tree.has dest) (target : Target) :
    Adds s₀ New (convert target logPath source dest) Any := by
  refine (adds_play hlog hd _).bind fun _ _ => Adds.tree.bind fun u _ => ?_
  refine (Adds.forM fun e _ => adds_play hlog hd e).bind fun _ _ => ?_
  split
  · exact .fail _
  · exact .pure trivial

omit hlog in
theorem adds_appendComparison
    (hp : ∀ t, Gains anywhere s₀.tree t → ∀ p, t.locate true path = .ok (p, none) → New p) :
    Adds s₀ New (appendComparison path source dest) Any :=
  (Adds.edit fun t _ hg hu => .update hu (hp t hg)).bind fun _ _ =>
    .edit fun t _ hg hu => .update hu (hp t hg)

theorem adds_compare {place : ComparisonPlace} (hf : ∀ w, place = .inFile w → ∀ t, Gains anywhere s₀.tree t →
      ∀ p, t.locate true w = .ok (p, none) → New p)
    (hb : ∀ t, Gains anywhere s₀.tree t →
      ∀ p, t.locate true (Path.stem dest ++ ".diff") = .ok (p, none) → New p) :
    Adds s₀ New (compare place logPath dest none) Any := by
  have hc : ∀ path, (∀ t, Gains anywhere s₀.tree t → ∀ p, t.locate true path = .ok (p, none) → New p) →
      Adds s₀ New (compare (.inFile path) logPath dest none) Any := fun path hp =>
    Adds.bind (Adds.pure rfl) fun w hw => (Adds.sourceOf dest).bind fun _ _ =>
      adds_appendComparison (hw ▸ hp)
  cases place with
  | nowhere => exact .pure trivial
  | beside => exact (adds_log hlog _).bind fun _ _ => hc _ hb
  | inFile path => exact hc path (hf path rfl)

end Conversion

end Job

end QtMigration
