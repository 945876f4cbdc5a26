import QtMigration.Failure

/-!
# Proofs/Failure — when a computation does not break off

A chain of computations answers exactly if each of its steps does; `Run.bind_eq_ok` and
`bind_eq_ok` take such a chain apart.
-/

namespace QtMigration

variable {α β : Type}

/-- Outcomes can be compared, so a run on a given input can be decided. -/
instance decidableEqOutcome [DecidableEq α] : DecidableEq (Except Failure α)
  | .ok a, .ok b => decidable_of_iff (a = b) ⟨congrArg Except.ok, Except.ok.inj⟩
  | .error e, .error f => decidable_of_iff (e = f) ⟨congrArg Except.error, Except.error.inj⟩
  | .ok _, .error _ => isFalse (fun h => nomatch h)
  | .error _, .ok _ => isFalse (fun h => nomatch h)

theorem bind_eq_ok {x : Except Failure α} {f : α → Except Failure β} {b : β} :
    (x >>= f) = .ok b ↔ ∃ a, x = .ok a ∧ f a = .ok b := by
  cases x with
  | error e => exact ⟨fun h => (nomatch h), fun ⟨_, h, _⟩ => (nomatch h)⟩
  | ok a => exact ⟨fun h => ⟨a, rfl, h⟩, fun ⟨_, h, hf⟩ => by cases h; exact hf⟩

theorem map_eq_ok {x : Except Failure α} {f : α → β} {b : β} : x.map f = .ok b ↔ ∃ a, x = .ok a ∧ f a = b := by
  cases x with
  | error e => exact ⟨fun h => (nomatch h), fun ⟨_, h, _⟩ => (nomatch h)⟩
  | ok a => exact ⟨fun h => ⟨a, rfl, Except.ok.inj h⟩, fun ⟨_, h, hf⟩ => by cases h; rw [← hf]; rfl⟩

namespace Run

@[simp] theorem outcome_lift (x : Except Failure α) : (liftM x : Run α).outcome = x := rfl

theorem bind_eq_ok {x : Run α} {f : α → Run β} {b : β} :
    (x >>= f).outcome = .ok b ↔ ∃ a, x.outcome = .ok a ∧ (f a).outcome = .ok b := by
  change (x.andThen f).outcome = .ok b ↔ _
  rw [andThen]
  split
  next a ha => exact ⟨fun h => ⟨a, ha, h⟩, fun ⟨c, hc, hf⟩ => by
    obtain rfl : a = c := Except.ok.inj (ha.symm.trans hc)
    exact hf⟩
  next e he => exact ⟨fun h => (nomatch h), fun ⟨c, hc, _⟩ => (nomatch he.symm.trans hc)⟩

instance : LawfulMonad Run := LawfulMonad.mk' Run
  (fun x => by
    change x.andThen (fun a => done a) = x
    cases x with | mk printed outcome => cases outcome <;> simp [andThen, done])
  (fun _ _ => rfl)
  (fun x f g => by
    change (x.andThen f).andThen g = x.andThen fun a => (f a).andThen g
    cases x with
    | mk printed outcome =>
      cases outcome with
      | error e => rfl
      | ok a =>
        simp only [andThen]
        split <;> simp [*])

end Run

end QtMigration
