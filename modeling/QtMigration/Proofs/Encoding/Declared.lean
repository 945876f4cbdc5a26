import QtMigration.Proofs.Encoding.RoundTrip

/-!
# Proofs/Encoding/Declared — the lines that declare an encoding

A declaration is a comment of the first two lines, and the second line counts only behind a comment or a blank
line (`commentEncoding`).
-/

namespace QtMigration

open List

/-- The encoding that a line names behind the word `coding`, if it is a known one. -/
def namedEncoding? (line : Bytes) : Option Text :=
  match decodeAscii line with
  | .error _ => none
  | .ok s => (declaredLabel? s).bind fun label =>
      let encoding := (standardLabel? (normalLabel label)).getD (normalLabel label)
      if (Codec.ofLabel? encoding).isSome then some encoding else none

def isIndentByte (b : UInt8) : Bool := b == 32 || b == 9 || b == 12

def isCommentLine (line : Bytes) : Bool := (line.dropWhile isIndentByte).head? == some 35

/-- Nothing stands in the line but its indentation and its end. -/
def isBlankLine (line : Bytes) : Bool := line.all fun b => isIndentByte b || b == 10 || b == 13

/-- The second line is a comment behind a line without code. -/
def isCommentBehind (first second : Bytes) : Bool := isCommentLine second && (isBlankLine first || isCommentLine first)

/-- **The encoding that the comments of the first two lines declare.** -/
def commentEncoding (first second : Bytes) : Text :=
  if isCommentLine first && (namedEncoding? first).isSome then (namedEncoding? first).getD "utf-8"
  else if isCommentBehind first second then (namedEncoding? second).getD "utf-8"
  else "utf-8"

theorem declaredEncoding_outcome (line : Bytes) : (declaredEncoding line false).outcome = .ok (namedEncoding? line) := by
  rw [declaredEncoding, namedEncoding?]
  cases decodeAscii line with
  | error _ => rfl
  | ok s =>
    cases hl : declaredLabel? s with
    | none => simp only [hl]; rfl
    | some label =>
      simp only [hl, Option.bind_some]
      cases standardLabel? (normalLabel label) with
      | some standard =>
        simp only [pure_bind, Option.getD_some]
        cases Codec.ofLabel? standard <;> rfl
      | none =>
        simp only [pure_bind, Option.getD_none]
        refine Run.bind_eq_ok.mpr ⟨(), rfl, ?_⟩
        cases Codec.ofLabel? (normalLabel label) <;> rfl

/-- **What is read without a byte order mark**: the encoding named in the first line, else in the second, be
they comments or code. -/
theorem encodingOfLines_outcome {first second : Bytes} (hm : byteOrderMark.isPrefixOf first = false) :
    (encodingOfLines first second).outcome =
      .ok (((namedEncoding? first).or (namedEncoding? second)).getD "utf-8") := by
  rw [encodingOfLines, hm]
  split
  next h =>
    obtain ⟨hf, hs⟩ := Bool.and_eq_true_iff.mp h
    rw [isEmpty_iff.mp hf, isEmpty_iff.mp hs]
    rfl
  next =>
    refine Run.bind_eq_ok.mpr ⟨_, declaredEncoding_outcome first, ?_⟩
    cases namedEncoding? first with
    | some e => rfl
    | none =>
      refine Run.bind_eq_ok.mpr ⟨_, declaredEncoding_outcome second, ?_⟩
      cases namedEncoding? second <;> rfl

theorem mem_of_declaredLabel? : ∀ {s label : Text}, declaredLabel? s = some label → 'c' ∈ s
  | c :: cs, label, h => by
    rw [declaredLabel?] at h
    split at h
    next found hf =>
      split at hf
      next hs =>
        obtain ⟨rest, hr⟩ := isPrefixOf_iff_prefix.mp hs
        rw [← hr]
        exact mem_append_left _ (by decide)
      · cases hf
    · exact mem_cons_of_mem c (mem_of_declaredLabel? h)

theorem isBlankLine_of_named {line : Bytes} {e : Text} (h : namedEncoding? line = some e) : isBlankLine line = false := by
  rw [namedEncoding?] at h
  split at h
  · cases h
  next s hs =>
    obtain ⟨label, hl, -⟩ := Option.bind_eq_some_iff.mp h
    obtain ⟨rfl, -⟩ := decodeAsciiGo_eq_ok hs
    obtain ⟨b, hb, hc⟩ := mem_map.mp (mem_of_declaredLabel? hl)
    refine all_eq_false.mpr ⟨b, hb, fun h => ?_⟩
    simp only [isIndentByte, Bool.or_eq_true, beq_iff_eq] at h
    rcases h with (((rfl | rfl) | rfl) | rfl) | rfl <;> exact absurd hc (by decide)

def latinComment : Bytes := [35, 32, 99, 111, 100, 105, 110, 103, 61, 108, 97, 116, 105, 110, 49, 10]

end QtMigration
