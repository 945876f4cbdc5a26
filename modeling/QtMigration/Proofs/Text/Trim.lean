import Mathlib.Data.List.TakeWhile
import QtMigration.Line.Kind
import QtMigration.Token.Scan

/-!
# Proofs/Text/Trim — what trimming leaves, and what makes a line code

Trimming stops at the first character that is not white space, from either side.
-/

namespace QtMigration

open List

variable {c : Char}

theorem isBlank_of_isRowBlank (h : isRowBlank c) : Text.isBlank c := by
  simp only [isRowBlank, Bool.or_eq_true, beq_iff_eq] at h
  rcases h with (rfl | rfl) | rfl <;> decide

namespace Text

/-! ## Trimming -/

section Trim

variable {s t : Text}

theorem trimLeft_cons (hc : isBlank c = false) (s : Text) : trimLeft (c :: s) = c :: s := by
  rw [trimLeft, trimLeftWhile, dropWhile_cons_of_neg (by simp [hc])]

theorem trimLeft_append (s t : Text) :
    trimLeft (s ++ t) = if (trimLeft s).isEmpty then trimLeft t else trimLeft s ++ t := by
  rw [trimLeft, trimLeftWhile, dropWhile_append]
  rfl

theorem blank_eq_false_of_trimLeft (h : trimLeft s = c :: t) : isBlank c = false := by
  have hh := head?_dropWhile_not isBlank s
  rwa [show s.dropWhile isBlank = c :: t from h] at hh

theorem trimLeft_suffix (s : Text) : trimLeft s <:+ s := dropWhile_suffix _

theorem trimRight_isPrefix (s : Text) : trimRight s <+: s := by
  rw [trimRight, trimRightWhile, ← reverse_suffix, reverse_reverse]
  exact dropWhile_suffix _

theorem trim_infix (s : Text) : trim s <:+: s :=
  (trimRight_isPrefix _).isInfix.trans (trimLeft_suffix s).isInfix

theorem trim_cons_blank (hc : isBlank c) (s : Text) : trim (c :: s) = trim s := by
  rw [trim, trim, trimLeft, trimLeftWhile, dropWhile_cons_of_pos hc]
  rfl

theorem trimRight_append_blank (hc : isBlank c) (s : Text) : trimRight (s ++ [c]) = trimRight s := by
  rw [trimRight, trimRight, trimRightWhile, trimRightWhile, reverse_append,
    reverse_singleton, singleton_append, dropWhile_cons_of_pos hc]

theorem trim_append_blank (hc : isBlank c) (s : Text) : trim (s ++ [c]) = trim s := by
  rw [trim, trim, trimLeft_append]
  split
  next he =>
    rw [List.isEmpty_iff.mp he, trimLeft, trimLeftWhile, dropWhile_cons_of_pos hc]
    rfl
  · exact trimRight_append_blank hc _

theorem exists_trimRight (s : Text) : ∃ blank, s = trimRight s ++ blank ∧ blank.all isBlank := by
  refine ⟨(s.reverse.takeWhile isBlank).reverse, ?_, ?_⟩
  · rw [trimRight, trimRightWhile, ← reverse_append, takeWhile_append_dropWhile, reverse_reverse]
  · rw [all_reverse]
    exact all_takeWhile

theorem trimRight_eq_nil_iff : trimRight s = [] ↔ s.all isBlank := by
  rw [trimRight, trimRightWhile, reverse_eq_nil_iff, dropWhile_eq_nil_iff, all_eq_true]
  simp

theorem trimRight_concat (hc : isBlank c = false) (s : Text) : trimRight (s ++ [c]) = s ++ [c] := by
  rw [trimRight, trimRightWhile, reverse_append, reverse_singleton, singleton_append,
    dropWhile_cons_of_neg (by simp [hc])]
  simp

theorem trimRight_append (hc : isBlank c = false) (s t : Text) :
    trimRight (s ++ [c] ++ t) = s ++ [c] ++ trimRight t := by
  have h := trimRight_concat hc s
  rw [trimRight, trimRightWhile] at h ⊢
  rw [reverse_append, dropWhile_append]
  split
  next he =>
    have hn : trimRight t = [] := by
      rw [trimRight, trimRightWhile, List.isEmpty_iff.mp he, reverse_nil]
    rw [h, hn, append_nil]
  next => rw [reverse_append, reverse_reverse]; rfl

theorem trimRight_append_of_ne_nil (s : Text) {t : Text} (h : trimRight t ≠ []) :
    trimRight (s ++ t) = s ++ trimRight t := by
  rw [trimRight, trimRightWhile, reverse_append, dropWhile_append]
  split
  next he =>
    refine absurd ?_ h
    rw [trimRight, trimRightWhile, List.isEmpty_iff.mp he, reverse_nil]
  next => rw [reverse_append, reverse_reverse]; rfl

theorem trim_append (hne : s ≠ []) (hs : ∀ c ∈ s, isBlank c = false) (t : Text) :
    trim (s ++ t) = s ++ trimRight t := by
  obtain ⟨front, c, rfl⟩ := (eq_nil_or_concat s).resolve_left hne
  rw [concat_eq_append] at hs ⊢
  have hl : trimLeft (front ++ [c] ++ t) = front ++ [c] ++ t := by
    cases front with
    | nil => exact trimLeft_cons (hs c (by simp)) t
    | cons d front => exact trimLeft_cons (hs d (by simp)) _
  rw [trim, hl, trimRight_append (hs c (by simp))]

theorem suffix_trim (hne : s ≠ []) (hs : ∀ c ∈ s, isBlank c = false) (t : Text) : s <:+ trim (t ++ s) := by
  obtain ⟨front, c, rfl⟩ := (eq_nil_or_concat s).resolve_left hne
  rw [concat_eq_append] at hs ⊢
  have hr : ∀ u : Text, trimRight (u ++ (front ++ [c])) = u ++ (front ++ [c]) := fun u => by
    rw [← append_assoc, trimRight_concat (hs c (by simp))]
  rw [trim, trimLeft_append]
  split
  · have hl : trimLeft (front ++ [c]) = front ++ [c] := by
      cases front with
      | nil => exact trimLeft_cons (hs c (by simp)) []
      | cons d front => exact trimLeft_cons (hs d (by simp)) _
    have hk : trimRight (front ++ [c]) = front ++ [c] := hr []
    exact ⟨[], by rw [hl, hk, nil_append]⟩
  · rw [hr]
    exact suffix_append _ _

end Trim

/-! ## Lines of code -/

theorem trim_isEmpty (s : Text) : s.trim.isEmpty = s.trimLeft.isEmpty := by
  cases h : trimLeft s with
  | nil => rw [trim, h]; rfl
  | cons c cs =>
    have hc : isBlank c = false := blank_eq_false_of_trimLeft h
    rw [trim, h, isEmpty_cons, isEmpty_eq_false_iff]
    intro hn
    have ha := all_eq_true.mp (trimRight_eq_nil_iff.mp hn) c mem_cons_self
    rw [hc] at ha
    cases ha

theorem isCode_eq_head (s : Text) : s.isCode = s.trimLeft.head?.any fun c => c != '#' && c != '"' && c != '\'' := by
  have hq : (("\"" : String).toList : Text) = ['"'] := String.toList_ofList
  have hs : (("'" : String).toList : Text) = ['\''] := String.toList_ofList
  have hdoc : s.isDocstring → s.isString := by
    rw [isDocstring, isString, startsWithAny, startsWithAny]
    simp only [any_cons, any_nil, Bool.or_false, Bool.or_eq_true, startsWith, isPrefixOf_iff_prefix]
    refine Or.imp (fun h => .trans ?_ h) (fun h => .trans ?_ h)
    · rw [hq]; exact ⟨['"', '"'], by simp⟩
    · rw [hs]; exact ⟨['\'', '\''], by simp⟩
  have hc : s.isCode = !(s.trimLeft.isEmpty || s.isComment || s.isString) := by
    rw [isCode, trim_isEmpty]
    cases hd : s.isDocstring with
    | false => rw [Bool.or_false]
    | true => rw [hdoc hd, Bool.or_true, Bool.or_true]
  rw [hc, isComment, isString, startsWithAny, hq, hs]
  cases trimLeft s with
  | nil => rfl
  | cons c cs =>
    have hf : ∀ d : Char, [d].isPrefixOf (c :: cs) = (c == d) := fun d => by
      simp [List.isPrefixOf, eq_comm]
    simp [startsWith, hf, Bool.and_assoc, bne]

theorem isCode_of_isImport {line : Text} (h : line.isImport) : line.isCode := by
  rw [isImport, startsWithAny, any_eq_true] at h
  obtain ⟨head, hh, hs⟩ := h
  rw [startsWith, isPrefixOf_iff_prefix] at hs
  obtain ⟨rest, hr⟩ := hs
  rw [isCode, isComment, isString, isDocstring, trim_isEmpty, ← hr]
  simp only [mem_cons, not_mem_nil, or_false] at hh
  rcases hh with rfl | rfl <;> rfl

theorem isCode_append_cons (hc : isBlank c = false) (s t : Text) : isCode (s ++ c :: t) = isCode (s ++ [c]) := by
  rw [isCode_eq_head, isCode_eq_head, trimLeft_append, trimLeft_append, trimLeft_cons hc, trimLeft_cons hc]
  cases trimLeft s <;> rfl

end Text

end QtMigration
