import QtMigration.Token.Lexeme

/-!
# Proofs/Token/Lexeme — a lexeme and what follows it make up the text

A matcher `Splits` if the part it recognises, followed by the rest it leaves, is the text it was given.
-/

namespace QtMigration

open List

variable {l : Lexeme} {r s x : Text}

namespace Matcher

/-- **Nothing is lost or made up**: the part and the rest make up the text. -/
def Splits (m : Matcher) : Prop := ∀ ⦃s x r : Text⦄, m s = some (x, r) → x ++ r = s

/-! ## Primitive matchers -/

theorem splits_one (p : Char → Bool) : Splits (one p)
  | [], _, _, h => by simp [one] at h
  | c :: cs, x, r, h => by
    rw [one] at h
    split at h
    · obtain ⟨rfl, rfl⟩ : [c] = x ∧ cs = r := by simpa using h
      rfl
    · simp at h

theorem splits_literal (t : Text) : Splits (literal t) := by
  intro s x r h
  rw [literal] at h
  split at h
  next hp =>
    obtain ⟨rfl, rfl⟩ : t = x ∧ s.drop t.length = r := by simpa using h
    exact (prefix_iff_eq_append.mp ( isPrefixOf_iff_prefix.mp hp))
  next => simp at h

theorem splits_run (p : Char → Bool) : Splits (run p) := by
  intro s x r h
  obtain ⟨rfl, rfl⟩ : s.takeWhile p = x ∧ s.dropWhile p = r := by simpa [run] using h
  exact takeWhile_append_dropWhile

theorem splits_run1 (p : Char → Bool) : Splits (run1 p) := by
  intro s x r h
  rw [run1] at h
  split at h
  · simp at h
  · exact splits_run p h

/-! ## Combinators -/

variable {a b : Matcher}

theorem exists_of_seq (h : seq a b s = some (x, r)) :
    ∃ y r₁ z, a s = some (y, r₁) ∧ b r₁ = some (z, r) ∧ y ++ z = x := by
  rw [Matcher.seq] at h
  split at h
  · simp at h
  next y r₁ hy =>
  split at h
  · simp at h
  next z r₂ hz =>
    obtain ⟨rfl, rfl⟩ : y ++ z = x ∧ r₂ = r := by simpa using h
    exact ⟨y, r₁, z, hy, hz, rfl⟩

theorem Splits.seq (ha : Splits a) (hb : Splits b) : Splits (seq a b) := by
  intro s x r h
  obtain ⟨y, r₁, z, hy, hz, rfl⟩ := exists_of_seq h
  rw [append_assoc, hb hz, ha hy]

theorem Splits.alt (ha : Splits a) (hb : Splits b) : Splits (alt a b) := by
  intro s x r h
  rw [Matcher.alt] at h
  split at h
  · exact hb h
  next h₁ => exact ha (h₁.trans h)

theorem Splits.opt (ha : Splits a) : Splits (opt a) := by
  intro s x r h
  rw [Matcher.opt] at h
  split at h
  · obtain ⟨rfl, rfl⟩ : [] = x ∧ s = r := by simpa using h
    rfl
  next h₁ => exact ha (h₁.trans h)

theorem splits_firstOf : ∀ {ms : List Matcher}, (∀ m ∈ ms, Splits m) → Splits (firstOf ms)
  | [], _ => fun s x r h => by simp [firstOf] at h
  | m :: ms, h =>
    (h m mem_cons_self).alt (splits_firstOf fun n hn => h n (mem_cons_of_mem _ hn))

end Matcher

open Matcher

/-! ## Numbers and operators -/

theorem digitTail_append (p : Char → Bool) (s : Text) : (digitTail p s).1 ++ (digitTail p s).2 = s := by
  fun_induction digitTail p s with
  | case1 => rfl
  | case2 => rfl
  | case3 => rfl
  | case4 c d cs _ r ih => rw [cons_append, ih]
  | case5 c d cs _ _ r ih => rw [cons_append, cons_append, ih]
  | case6 => rfl

theorem splits_digitTail (p : Char → Bool) : Splits fun s => some (digitTail p s) := by
  intro s x r h
  have hs := digitTail_append p s
  rw [Option.some.inj h] at hs
  exact hs

theorem splits_baseDigits (p : Char → Bool) : Splits (baseDigits p) := by
  intro s x r h
  rw [baseDigits] at h
  split at h
  · simp at h
  · exact splits_digitTail p h

theorem splits_digits : Splits digits := (splits_one _).seq (splits_digitTail _)

theorem splits_exponent : Splits exponent :=
  (splits_one _).seq ((splits_one _).opt.seq splits_digits)

theorem splits_decimalNumber : Splits decimalNumber :=
  (((splits_digits.seq ((splits_literal _).seq splits_digits.opt)).alt
    ((splits_literal _).seq splits_digits)).seq splits_exponent.opt).alt
    (splits_digits.seq splits_exponent)

theorem splits_imaginaryNumber : Splits imaginaryNumber :=
  (splits_digits.seq (splits_one _)).alt (splits_decimalNumber.seq (splits_one _))

theorem splits_wholeNumber : Splits wholeNumber := by
  refine splits_firstOf fun m hm => ?_
  simp only [mem_cons, not_mem_nil, or_false] at hm
  rcases hm with rfl | rfl | rfl | rfl | rfl
  · exact (splits_literal _).seq ((splits_one _).seq (splits_baseDigits _))
  · exact (splits_literal _).seq ((splits_one _).seq (splits_baseDigits _))
  · exact (splits_literal _).seq ((splits_one _).seq (splits_baseDigits _))
  · exact (splits_literal _).seq (splits_digitTail _)
  · exact (splits_one _).seq (splits_digitTail _)

theorem splits_numberLexeme : Splits numberLexeme := by
  refine splits_firstOf fun m hm => ?_
  simp only [mem_cons, not_mem_nil, or_false] at hm
  rcases hm with rfl | rfl | rfl
  · exact splits_imaginaryNumber
  · exact splits_decimalNumber
  · exact splits_wholeNumber

theorem splits_operatorLexeme : Splits operatorLexeme := by
  refine splits_firstOf fun m hm => ?_
  obtain ⟨t, -, rfl⟩ := mem_map.mp hm
  exact splits_literal t

theorem splits_lineEnd : Splits lineEnd := (splits_literal _).opt.seq (splits_literal _)

theorem splits_rowContinuation : Splits rowContinuation := (splits_literal _).seq splits_lineEnd

theorem splits_commentLexeme : Splits commentLexeme := (splits_literal _).seq (splits_run _)

/-! ## Strings -/

theorem splits_stringMark : Splits stringMark := by
  intro s x r h
  rw [stringMark] at h
  split at h
  · simp at h
  next c cs hd =>
  split at h
  · obtain ⟨rfl, rfl⟩ : (s.take 2).takeWhile (fun c => !isQuote c) = x ∧ c :: cs = r := by
      simpa using h
    have hp : (s.take 2).takeWhile (fun c => !isQuote c) <+: s :=
      ( takeWhile_prefix _).trans ( take_prefix 2 s)
    rw [← hd]
    exact prefix_iff_eq_append.mp hp
  · simp at h

theorem splits_tripleQuote : Splits tripleQuote := (splits_literal _).alt (splits_literal _)

theorem append_of_map_eq_some {m : Option (Text × Text)} (front : Text) {rest : Text}
    (h : (m.map fun q => (front ++ q.1, q.2)) = some (x, r))
    (hm : ∀ y, m = some (y, r) → y ++ r = rest) : x ++ r = front ++ rest := by
  obtain ⟨⟨y, r'⟩, hq, heq⟩ := Option.map_eq_some_iff.mp h
  obtain ⟨rfl, rfl⟩ : front ++ y = x ∧ r' = r := by simpa using heq
  rw [append_assoc, hm y hq]

theorem splits_stringBody (quote : Char) : Splits (stringBody quote) := by
  intro s x r h
  fun_induction stringBody quote s generalizing x r with
  | case1 => simp at h
  | case2 cs =>
    obtain ⟨rfl, rfl⟩ : ['\\', '\n'] = x ∧ cs = r := by simpa using h
    rfl
  | case3 cs =>
    obtain ⟨rfl, rfl⟩ : ['\\', '\r', '\n'] = x ∧ cs = r := by simpa using h
    rfl
  | case4 c cs _ _ ih => exact append_of_map_eq_some ['\\', c] h fun y hy => ih hy
  | case5 c cs _ _ _ _ =>
    obtain ⟨rfl, rfl⟩ : [c] = x ∧ cs = r := by simpa using h
    rfl
  | case6 => simp at h
  | case7 c cs _ _ _ _ _ ih => exact append_of_map_eq_some [c] h fun y hy => ih hy

theorem splits_stringLexeme : Splits stringLexeme := by
  refine splits_stringMark.seq fun s x r h => ?_
  split at h
  · simp at h
  next q cs =>
    exact append_of_map_eq_some [q] h fun y hy => splits_stringBody q hy

theorem splits_stringEnd (closing : Text) : Splits (stringEnd closing) := by
  intro s x r h
  fun_induction stringEnd closing s generalizing x r with
  | case1 => simp at h
  | case2 c cs hp => exact splits_literal closing (by rw [literal, if_pos hp]; exact h)
  | case3 => simp at h
  | case4 c cs _ _ ih => exact append_of_map_eq_some ['\\', c] h fun y hy => ih hy
  | case5 c cs _ hp => exact splits_literal closing (by rw [literal, if_pos hp]; exact h)
  | case6 => simp at h
  | case7 c cs _ _ _ ih => exact append_of_map_eq_some [c] h fun y hy => ih hy

/-! ## The lexeme at the front -/

theorem append_of_map {m : Matcher} (hm : Splits m) {f : Text × Text → Lexeme × Text × Text}
    (hf : ∀ q, (f q).2 = q) (h : (m s).map f = some (l, x, r)) :
    x ++ r = s := by
  obtain ⟨⟨y, r'⟩, hq, heq⟩ := Option.map_eq_some_iff.mp h
  have hqr : (y, r') = (x, r) := by rw [← hf (y, r'), heq]
  exact hm (hqr ▸ hq)

theorem lexeme?_splits (h : lexeme? s = some (l, x, r)) : x ++ r = s := by
  simp only [lexeme?, named, Option.orElse_eq_orElse, Option.orElse_eq_or, Option.or_eq_some_iff] at h
  rcases h with h | ⟨-, h⟩
  · exact append_of_map splits_rowContinuation (fun _ => rfl) h
  rcases h with h | ⟨-, h⟩
  · exact append_of_map splits_commentLexeme (fun _ => rfl) h
  rcases h with h | ⟨-, h⟩
  · exact append_of_map (splits_stringMark.seq splits_tripleQuote) (fun _ => rfl) h
  rcases h with h | ⟨-, h⟩
  · exact append_of_map splits_numberLexeme (fun _ => rfl) h
  rcases h with h | ⟨-, h⟩
  · exact append_of_map splits_lineEnd (fun _ => rfl) h
  rcases h with h | ⟨-, h⟩
  · exact append_of_map splits_operatorLexeme (fun _ => rfl) h
  rcases h with h | ⟨-, h⟩
  · refine append_of_map splits_stringLexeme (fun q => ?_) h
    split <;> rfl
  · exact append_of_map (splits_run1 _) (fun _ => rfl) h

/-- The kinds of the tokens that are whole lexemes, comments apart. -/
def wholeKinds : List TokenKind := [.number, .operator, .string, .word]

theorem lexeme?_cases (h : lexeme? s = some (l, x, r)) :
    (l = .continuation ∧ rowContinuation s = some (x, r)) ∨ (l = .lineEnd ∧ lineEnd s = some (x, r)) ∨
      (l = .whole .comment ∧ commentLexeme s = some (x, r)) ∨ (∃ kind ∈ wholeKinds, l = .whole kind) ∨
      (∃ closing, l = .tripleOpen closing) ∨ ∃ closing, l = .openString closing := by
  simp only [lexeme?, named, Option.orElse_eq_orElse, Option.orElse_eq_or, Option.or_eq_some_iff,
    Option.map_eq_some_iff] at h
  rcases h with ⟨q, hq, h⟩ | ⟨-, ⟨q, hq, h⟩ | ⟨-, ⟨q, -, h⟩ | ⟨-, ⟨q, -, h⟩ | ⟨-, ⟨q, hq, h⟩ |
    ⟨-, ⟨q, -, h⟩ | ⟨-, ⟨q, -, h⟩ | ⟨-, q, -, h⟩⟩⟩⟩⟩⟩⟩
  · cases h
    exact .inl ⟨rfl, hq⟩
  · cases h
    exact .inr (.inr (.inl ⟨rfl, hq⟩))
  · cases h
    exact .inr (.inr (.inr (.inr (.inl ⟨_, rfl⟩))))
  · cases h
    exact .inr (.inr (.inr (.inl ⟨_, by decide, rfl⟩)))
  · cases h
    exact .inr (.inl ⟨rfl, hq⟩)
  · cases h
    exact .inr (.inr (.inr (.inl ⟨_, by decide, rfl⟩)))
  · split at h
    · cases h
      exact .inr (.inr (.inr (.inr (.inr ⟨_, rfl⟩))))
    · cases h
      exact .inr (.inr (.inr (.inl ⟨_, by decide, rfl⟩)))
  · cases h
    exact .inr (.inr (.inr (.inl ⟨_, by decide, rfl⟩)))

theorem lexeme?_ne_indent : lexeme? s ≠ some (.whole .indent, x, r) := by
  intro h
  rcases lexeme?_cases h with ⟨h, -⟩ | ⟨h, -⟩ | ⟨h, -⟩ | ⟨kind, hk, h⟩ | ⟨_, h⟩ | ⟨_, h⟩
  case inr.inr.inr.inl =>
    cases h
    exact absurd hk (by decide)
  all_goals cases h

/-! ## Ends of rows -/

theorem newline_mem_of_lineEnd (h : lineEnd s = some (x, r)) : '\n' ∈ x := by
  obtain ⟨y, r₁, z, -, hz, rfl⟩ := exists_of_seq h
  rw [literal] at hz
  split at hz
  · cases hz
    exact mem_append_right _ (by decide)
  · cases hz

theorem newline_mem_of_rowContinuation (h : rowContinuation s = some (x, r)) : '\n' ∈ x := by
  obtain ⟨y, r₁, z, -, hz, rfl⟩ := exists_of_seq h
  exact mem_append_right _ (newline_mem_of_lineEnd hz)

theorem rest_of_commentLexeme (h : commentLexeme s = some (x, r)) :
    x ≠ [] ∧ '\n' ∉ x ∧ ∀ c ∈ r.head?, c = '\r' ∨ c = '\n' := by
  obtain ⟨y, r₁, z, hy, hz, rfl⟩ := exists_of_seq h
  obtain ⟨rfl, rfl⟩ : r₁.takeWhile (fun c => c != '\r' && c != '\n') = z ∧
      r₁.dropWhile (fun c => c != '\r' && c != '\n') = r := by simpa [run] using hz
  rw [literal] at hy
  split at hy
  · obtain ⟨rfl, -⟩ := Prod.mk.inj (Option.some.inj hy)
    refine ⟨by simp, ?_, ?_⟩
    · rw [mem_append, not_or]
      refine ⟨by decide, fun hm => ?_⟩
      exact absurd (all_eq_true.mp all_takeWhile _ hm) (by decide)
    · intro c hc
      have hs := head?_dropWhile_not (fun c => c != '\r' && c != '\n') r₁
      rw [Option.mem_def.mp hc] at hs
      simpa [Decidable.or_iff_not_imp_left] using hs
  · cases hy

end QtMigration
