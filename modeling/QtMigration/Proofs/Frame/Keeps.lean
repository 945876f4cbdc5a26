import QtMigration.Api.Notes
import QtMigration.Line.At
import QtMigration.Proofs.Failure

/-!
# Proofs/Frame/Keeps — lines that a pass leaves alone

`Keeps keep before after` says that the lines of `before` that pass the test `keep` are still there in
`after`: in their order, unchanged, and as often.
-/

namespace QtMigration

open List

variable {lines : List Text} {line line' : Text}

/-- **The lines of `before` that pass the test are a subsequence of `after`.** -/
def Keeps (keep : Text → Bool) (before after : List Text) : Prop :=
  (before.filter keep).Sublist after

instance (keep : Text → Bool) (before after : List Text) : Decidable (Keeps keep before after) :=
  inferInstanceAs (Decidable (List.Sublist _ _))

namespace Keeps

variable {keep : Text → Bool} {before middle after before' after' : List Text}

theorem refl (lines : List Text) : Keeps keep lines lines := filter_sublist

theorem trans (h : Keeps keep before middle) (h' : Keeps keep middle after) : Keeps keep before after := by
  have hk : (before.filter keep).Sublist (middle.filter keep) := by
    simpa [filter_filter] using h.filter keep
  exact hk.trans h'

theorem append (h : Keeps keep before after) (h' : Keeps keep before' after') :
    Keeps keep (before ++ before') (after ++ after') := by
  rw [Keeps, filter_append]
  exact List.Sublist.append h h'

theorem of_sublist (h : before.Sublist after) : Keeps keep before after :=
  filter_sublist.trans h

theorem trans_sublist (h : Keeps keep before middle) (h' : middle.Sublist after) : Keeps keep before after :=
  List.Sublist.trans h h'

theorem step {here : List Text} (hl : keep line → line ∈ here)
    (h : Keeps keep before after) : Keeps keep (line :: before) (here ++ after) := by
  have hh : Keeps keep [line] here := by
    cases hk : keep line with
    | false => simp [Keeps, hk]
    | true => simpa [Keeps, hk] using hl hk
  exact hh.append h

theorem skip (hl : keep line = false) (h : Keeps keep before after) :
    Keeps keep (line :: before) after := by
  rwa [Keeps, filter_cons_of_neg (by simp [hl])]

theorem cons (hl : keep line → line' = line)
    (h : Keeps keep before after) : Keeps keep (line :: before) (line' :: after) := by
  rw [← singleton_append (l := after)]
  exact h.step fun hk => by rw [hl hk]; exact mem_cons_self

theorem set {i : Nat} (hi : lines[i]? = some line)
    (hl : keep line = false) : Keeps keep lines (lines.set i line') := by
  obtain ⟨hlt, rfl⟩ := List.getElem?_eq_some_iff.mp hi
  rw [set_eq_take_append_cons_drop, if_pos hlt]
  have h : Keeps keep (lines.take i ++ lines[i] :: lines.drop (i + 1))
      (lines.take i ++ line' :: lines.drop (i + 1)) :=
    (refl _).append ((refl _).cons fun hk => absurd hk (by simp [hl]))
  rwa [← drop_eq_getElem_cons hlt, take_append_drop] at h

end Keeps

/-! ## Passes line by line -/

/-- **Each line gives a piece of the result, as `R` says.** -/
inductive Expands (R : Text → List Text → Prop) : List Text → List Text → Prop
  | nil : Expands R [] []
  | cons {line : Text} {here before after : List Text} (hline : R line here) (hrest : Expands R before after) :
    Expands R (line :: before) (here ++ after)

section Passes

variable {keep : Text → Bool} {R : Text → List Text → Prop} {before after : List Text}

theorem map_keeps {f : Text → Text} (hf : ∀ line, keep line → f line = line) :
    ∀ lines : List Text, Keeps keep lines (lines.map f)
  | [] => Keeps.refl []
  | line :: lines => (map_keeps hf lines).cons (hf line)

theorem Expands.single (hl : R line [line']) (h : Expands R before after) :
    Expands R (line :: before) (line' :: after) :=
  .cons hl h

theorem Expands.keeps (h : Expands R before after)
    (hR : ∀ line here, R line here → keep line → line ∈ here) : Keeps keep before after := by
  induction h with
  | nil => exact Keeps.refl []
  | cons hl _ ih => exact ih.step (hR _ _ hl)

theorem Expands.imp {S : Text → List Text → Prop} (h : Expands R before after)
    (hRS : ∀ line here, R line here → S line here) : Expands S before after := by
  induction h with
  | nil => exact .nil
  | cons hl _ ih => exact .cons (hRS _ _ hl) ih

theorem Expands.append {before' after' : List Text} (h : Expands R before after) (h' : Expands R before' after') :
    Expands R (before ++ before') (after ++ after') := by
  induction h with
  | nil => exact h'
  | cons hl _ ih =>
    rw [cons_append, append_assoc]
    exact .cons hl ih

theorem Expands.forall_mem {Q : Text → Prop} (h : Expands R before after) (hb : ∀ line ∈ before, Q line)
    (hR : ∀ line here, R line here → Q line → ∀ line' ∈ here, Q line') : ∀ line ∈ after, Q line := by
  induction h with
  | nil => exact hb
  | cons hl _ ih =>
    obtain ⟨hf, hr⟩ := forall_mem_cons.mp hb
    exact forall_mem_append.mpr ⟨hR _ _ hl hf, ih hr⟩

theorem Expands.eq_self (h : Expands R before after)
    (hR : ∀ line ∈ before, ∀ here, R line here → here = [line]) : after = before := by
  induction h with
  | nil => rfl
  | cons hl _ ih =>
    obtain ⟨hf, hr⟩ := forall_mem_cons.mp hR
    rw [hf _ hl, ih hr, singleton_append]

theorem mapM_expands {f : Text → Except Failure Text} : ∀ {lines out : List Text}, lines.mapM f = .ok out →
    Expands (fun line here => ∃ line', f line = .ok line' ∧ here = [line']) lines out
  | [], out, h => Except.ok.inj h ▸ .nil
  | line :: lines, out, h => by
    rw [mapM_cons] at h
    obtain ⟨line', hl, h⟩ := bind_eq_ok.mp h
    obtain ⟨rest, hr, h⟩ := bind_eq_ok.mp h
    obtain rfl := Except.ok.inj h
    exact .cons ⟨line', hl, rfl⟩ (mapM_expands hr)

theorem mapM_keeps {f : Text → Except Failure Text}
    (hf : ∀ line line', keep line → f line = .ok line' → line' = line) {out : List Text}
    (h : lines.mapM f = .ok out) : Keeps keep lines out := by
  refine (mapM_expands h).keeps ?_
  rintro line _ ⟨line', hl, rfl⟩ hk
  rw [hf line line' hk hl]
  exact mem_cons_self

theorem expandLines_expands {f : Text → Except Failure (List Text)} : ∀ {lines out : List Text},
    expandLines f lines = .ok out → Expands (fun line here => f line = .ok here) lines out
  | [], out, h => Except.ok.inj h ▸ .nil
  | line :: lines, out, h => by
    rw [expandLines] at h
    obtain ⟨here, hh, h⟩ := bind_eq_ok.mp h
    obtain ⟨rest, hr, h⟩ := bind_eq_ok.mp h
    obtain rfl := Except.ok.inj h
    exact .cons hh (expandLines_expands hr)

end Passes

theorem sublist_insertAt (lines : List Text) (i : Int) (line : Text) : lines.Sublist (insertAt lines i line) := by
  rw [insertAt]
  generalize (if i < 0 then (i + lines.length).toNat else min i.toNat lines.length) = place
  have h := (List.Sublist.refl (lines.take place)).append (sublist_cons_self line (lines.drop place))
  rwa [take_append_drop] at h

end QtMigration
