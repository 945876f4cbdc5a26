import QtMigration.Text.Basic

/-!
# Proofs/Text/Rows — the physical rows of a text

`rows` and `rowsWithEnds` cut a text at the same newlines: the first drops them, the second keeps them.
-/

namespace QtMigration

open List

variable {c : Char} {ps rest : List Text} {row s : Text}

namespace Text

/-- **The text with its last row ended**: one newline is added, unless the text is empty or already
ends in one. -/
def ended (s : Text) : Text :=
  match s.getLast? with
  | none => s
  | some c => if c == '\n' then s else s ++ "\n"

/-! ## Rows without their line ends -/

theorem rows_newline (s : Text) : rows ('\n' :: s) = [] :: rows s := rfl

theorem rows_cons (hc : c ≠ '\n') (h : rows s = row :: rest) : rows (c :: s) = (c :: row) :: rest := by
  have hc' : (c == '\n') = false := by simpa using hc
  simp only [rows] at h ⊢
  rw [foldr_cons, hc', if_neg (by decide)]
  injection h with h1 h2
  rw [h1, h2]

theorem exists_rows (s : Text) : ∃ row rest, rows s = row :: rest := ⟨_, _, rfl⟩

theorem rows_eq_singleton_nil (h : rows s = [[]]) : s = [] := by
  cases s with
  | nil => rfl
  | cons c s =>
    obtain ⟨row, rest, hs⟩ := exists_rows s
    by_cases hc : c = '\n'
    · subst hc
      rw [rows_newline, hs] at h
      simp at h
    · rw [rows_cons hc hs] at h
      simp at h

theorem rows_append_newline (a b : Text) : rows (a ++ '\n' :: b) = rows a ++ rows b := by
  induction a with
  | nil => rfl
  | cons c a ih =>
    obtain ⟨row, rest, ha⟩ := exists_rows a
    by_cases hc : c = '\n'
    · rw [hc, cons_append, rows_newline, rows_newline, ih, cons_append]
    · rw [ha, cons_append] at ih
      rw [cons_append, rows_cons hc ih, rows_cons hc ha, cons_append]

theorem rows_of_no_newline (h : '\n' ∉ s) : rows s = [s] := by
  induction s with
  | nil => rfl
  | cons c s ih =>
    rw [mem_cons, not_or] at h
    exact rows_cons (Ne.symm h.1) (ih h.2)

theorem rows_append_of_no_newline {a : Text} (ha : '\n' ∉ a)
    (h : rows s = row :: rest) : rows (a ++ s) = (a ++ row) :: rest := by
  induction a with
  | nil => exact h
  | cons c a ih =>
    rw [mem_cons, not_or] at ha
    exact rows_cons (Ne.symm ha.1) (ih ha.2)

theorem newline_notMem_of_mem_rows (s : Text) : ∀ row ∈ rows s, '\n' ∉ row := by
  induction s with
  | nil => simp [rows]
  | cons c s ih =>
    obtain ⟨row, rest, hs⟩ := exists_rows s
    rw [hs, forall_mem_cons] at ih
    by_cases hc : c = '\n'
    · rw [hc, rows_newline, hs]
      exact forall_mem_cons.mpr ⟨by simp, forall_mem_cons.mpr ih⟩
    · rw [rows_cons hc hs]
      exact forall_mem_cons.mpr ⟨by simp [Ne.symm hc, ih.1], ih.2⟩

theorem infix_of_mem_rows (s : Text) : ∀ row ∈ rows s, row <:+: s := by
  -- the first row begins the text, the others are pieces of what follows
  suffices h : ∃ row rest, rows s = row :: rest ∧ row <+: s ∧ ∀ r ∈ rest, r <:+: s by
    obtain ⟨row, rest, hs, hf, hre⟩ := h
    rw [hs]
    exact forall_mem_cons.mpr ⟨hf.isInfix, hre⟩
  induction s with
  | nil => exact ⟨[], [], rfl, prefix_refl _, by simp⟩
  | cons c s ih =>
    obtain ⟨row, rest, hs, hf, hre⟩ := ih
    have hl : ∀ {r : Text}, r <:+: s → r <:+: c :: s := fun hr => hr.trans (infix_cons (infix_refl s))
    by_cases hc : c = '\n'
    · refine ⟨[], row :: rest, by rw [hc, rows_newline, hs], nil_prefix, ?_⟩
      exact forall_mem_cons.mpr ⟨hl hf.isInfix, fun r hr => hl (hre r hr)⟩
    · exact ⟨c :: row, rest, rows_cons hc hs, (prefix_cons_inj c).mpr hf,
        fun r hr => hl (hre r hr)⟩

theorem join_cons (sep p : Text) (h : ps ≠ []) : join sep (p :: ps) = p ++ sep ++ join sep ps := by
  obtain ⟨q, ps, rfl⟩ := exists_cons_of_ne_nil h
  rfl

theorem join_newline_cons (p : Text) (h : ps ≠ []) : join "\n" (p :: ps) = p ++ '\n' :: join "\n" ps := by
  rw [join_cons _ _ h, append_assoc]
  rfl

theorem join_rows (s : Text) : join "\n" (rows s) = s := by
  induction s with
  | nil => rfl
  | cons c s ih =>
    obtain ⟨row, rest, hs⟩ := exists_rows s
    by_cases hc : c = '\n'
    · rw [hc, rows_newline, join_newline_cons _ (by rw [hs]; simp), ih]
      rfl
    · rw [hs] at ih
      rw [rows_cons hc hs]
      cases rest with
      | nil => exact congrArg (c :: ·) ih
      | cons next rest =>
        rw [join_newline_cons _ (by simp)] at ih ⊢
        rw [← ih]
        rfl

theorem rows_join : ∀ {rs : List Text}, rs ≠ [] → (∀ row ∈ rs, '\n' ∉ row) → rows (join "\n" rs) = rs
  | [row], _, h => rows_of_no_newline (h row (mem_singleton.mpr rfl))
  | row :: next :: rest, _, h => by
    obtain ⟨hrow, hr⟩ := forall_mem_cons.mp h
    rw [join_newline_cons _ (by simp), rows_append_newline, rows_of_no_newline hrow, rows_join (by simp) hr]
    rfl

/-! ## Rows with their line ends -/

theorem rowsWithEnds_newline (s : Text) : rowsWithEnds ('\n' :: s) = ['\n'] :: rowsWithEnds s := rfl

theorem rowsWithEnds_cons (hc : c ≠ '\n')
    (h : rowsWithEnds s = row :: rest) : rowsWithEnds (c :: s) = (c :: row) :: rest := by
  have hc' : (c == '\n') = false := by simpa using hc
  simp only [rowsWithEnds] at h ⊢
  rw [foldr_cons, hc', if_neg (by decide), h]

theorem rowsWithEnds_singleton (hc : c ≠ '\n') : rowsWithEnds [c] = [[c]] := by
  have hc' : (c == '\n') = false := by simpa using hc
  rw [rowsWithEnds, foldr_cons, hc']
  rfl

@[elab_as_elim] theorem rowInduction {motive : Text → Prop} (nil : motive [])
    (newline : ∀ s, motive s → motive ('\n' :: s)) (single : ∀ c, c ≠ '\n' → motive [c])
    (cons : ∀ c s, c ≠ '\n' → s ≠ [] → motive s → motive (c :: s)) : ∀ s, motive s
  | [] => nil
  | [c] => by
    by_cases hc : c = '\n'
    · exact hc ▸ newline [] nil
    · exact single c hc
  | c :: d :: s => by
    have ih := rowInduction nil newline single cons (d :: s)
    by_cases hc : c = '\n'
    · exact hc ▸ newline (d :: s) ih
    · exact cons c (d :: s) hc (by simp) ih

theorem exists_rowsWithEnds (hs : s ≠ []) : ∃ row rest, rowsWithEnds s = row :: rest := by
  induction s using rowInduction with
  | nil => exact absurd rfl hs
  | newline s _ => exact ⟨_, _, rowsWithEnds_newline s⟩
  | single c hc => exact ⟨_, _, rowsWithEnds_singleton hc⟩
  | cons c s hc hne ih =>
    obtain ⟨row, rest, h⟩ := ih hne
    exact ⟨_, _, rowsWithEnds_cons hc h⟩

theorem flatten_rowsWithEnds (s : Text) : s.rowsWithEnds.flatten = s := by
  induction s using rowInduction with
  | nil => rfl
  | newline s ih => rw [rowsWithEnds_newline, flatten_cons, ih, singleton_append]
  | single c hc => rw [rowsWithEnds_singleton hc]; rfl
  | cons c s hc hs ih =>
    obtain ⟨row, rest, h⟩ := exists_rowsWithEnds hs
    rw [h, flatten_cons] at ih
    rw [rowsWithEnds_cons hc h, flatten_cons, cons_append, ih]

theorem rowsWithEnds_flatten_take (s : Text) :
    ∀ k, rowsWithEnds (s.rowsWithEnds.take k).flatten = s.rowsWithEnds.take k := by
  induction s using rowInduction with
  | nil =>
    intro k
    rw [show rowsWithEnds [] = [] from rfl, take_nil]
    rfl
  | newline s ih =>
    rintro (_ | k)
    · rfl
    · rw [rowsWithEnds_newline, take_succ_cons, flatten_cons, singleton_append, rowsWithEnds_newline, ih]
  | single c hc =>
    rw [rowsWithEnds_singleton hc]
    rintro (_ | k)
    · rfl
    · rw [take_succ_cons, take_nil, flatten_singleton, rowsWithEnds_singleton hc]
  | cons c s hc hs ih =>
    obtain ⟨row, rest, h⟩ := exists_rowsWithEnds hs
    rw [h] at ih
    rw [rowsWithEnds_cons hc h]
    rintro (_ | k)
    · rfl
    · have hr := ih (k + 1)
      rw [take_succ_cons, flatten_cons] at hr ⊢
      rw [cons_append, rowsWithEnds_cons hc hr]

theorem newline_mem_of_mem_dropLast (s : Text) : ∀ row ∈ s.rowsWithEnds.dropLast, '\n' ∈ row := by
  induction s using rowInduction with
  | nil => simp [rowsWithEnds]
  | single c hc => rw [rowsWithEnds_singleton hc]; simp
  | newline s ih =>
    rw [rowsWithEnds_newline]
    cases h : s.rowsWithEnds with
    | nil => simp
    | cons row rest =>
      rw [h] at ih
      rw [dropLast_cons_cons]
      exact forall_mem_cons.mpr ⟨mem_singleton.mpr rfl, ih⟩
  | cons c s hc hs ih =>
    obtain ⟨row, rest, h⟩ := exists_rowsWithEnds hs
    rw [h] at ih
    rw [rowsWithEnds_cons hc h]
    cases rest with
    | nil => simp
    | cons row' rest =>
      rw [dropLast_cons_cons] at ih ⊢
      obtain ⟨hrow, hr⟩ := forall_mem_cons.mp ih
      exact forall_mem_cons.mpr ⟨mem_cons_of_mem _ hrow, hr⟩

/-! ## The last row ended -/

theorem ended_cons (hs : s ≠ []) : ended (c :: s) = c :: ended s := by
  obtain ⟨d, s, rfl⟩ := exists_cons_of_ne_nil hs
  rw [ended, ended, getLast?_cons_cons]
  cases h : (d :: s).getLast? with
  | none => simp at h
  | some e => by_cases he : e = '\n' <;> simp [he]

theorem ended_newline (s : Text) : ended ('\n' :: s) = '\n' :: ended s := by
  cases s with
  | nil => rfl
  | cons c s => exact ended_cons (by simp)

theorem ended_singleton (hc : c ≠ '\n') : ended [c] = [c, '\n'] := by
  have hc' : (c == '\n') = false := by simpa using hc
  simp [ended, hc']

theorem ended_ne_nil (hs : s ≠ []) : ended s ≠ [] := by
  obtain ⟨c, s, rfl⟩ := exists_cons_of_ne_nil hs
  cases s with
  | nil => by_cases hc : c = '\n' <;> simp [hc, ended]
  | cons d s => rw [ended_cons (by simp)]; simp

theorem length_rowsWithEnds_ended (s : Text) : s.ended.rowsWithEnds.length = s.rowsWithEnds.length := by
  induction s using rowInduction with
  | nil => rfl
  | newline s ih =>
    rw [ended_newline, rowsWithEnds_newline, rowsWithEnds_newline, length_cons, length_cons, ih]
  | single c hc =>
    rw [ended_singleton hc, rowsWithEnds_singleton hc, rowsWithEnds_cons hc (rowsWithEnds_newline [])]
    rfl
  | cons c s hc hs ih =>
    obtain ⟨row, rest, h⟩ := exists_rowsWithEnds hs
    obtain ⟨row', rest', h'⟩ := exists_rowsWithEnds (ended_ne_nil hs)
    rw [h, h'] at ih
    rw [ended_cons hs, rowsWithEnds_cons hc h, rowsWithEnds_cons hc h']
    exact ih

end Text

end QtMigration
