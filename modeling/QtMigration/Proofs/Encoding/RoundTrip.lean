import QtMigration.Encoding.Declared
import QtMigration.Proofs.Failure

/-!
# Proofs/Encoding/RoundTrip — encoding a decoded text gives its bytes back

A UTF-8 sequence is decoded only if it is the shortest one for its character, so the character encodes to that
sequence (`utf8Step_encodes`), and a text to the bytes it was decoded from (`encodeUtf8_of_decodeUtf8`).
-/

namespace QtMigration

open List

variable {codec : Codec} {label s : Text}

/-! ## One character -/

section Char

variable {v b₁ b₂ b₃ : Nat}

theorem toNat_val_charOfNat {n : Nat} (h : n.isValidChar) : (Char.ofNat n).val.toNat = n := by
  rw [Char.ofNat, dif_pos h]
  rfl

theorem utf8EncodeChar_one (h : v < 128) : String.utf8EncodeChar (Char.ofNat v) = [UInt8.ofNat v] := by
  rw [String.utf8EncodeChar, toNat_val_charOfNat (.inl (by omega))]
  exact if_pos (by omega)

theorem utf8EncodeChar_two (hv : 2 ≤ v) (hv' : v < 32) (h₁ : 128 ≤ b₁ ∧ b₁ < 192) :
    String.utf8EncodeChar (Char.ofNat (v * 64 + (b₁ - 128))) = [UInt8.ofNat (v + 192), UInt8.ofNat b₁] := by
  rw [String.utf8EncodeChar, toNat_val_charOfNat (.inl (by omega))]
  rw [if_neg (by omega), if_pos (by omega)]
  congr <;> omega

theorem utf8EncodeChar_three (hv : v < 16) (h₁ : 128 ≤ b₁ ∧ b₁ < 192) (h₂ : 128 ≤ b₂ ∧ b₂ < 192)
    (hl : v = 0 → 160 ≤ b₁) (hh : v = 13 → b₁ < 160) :
    String.utf8EncodeChar (Char.ofNat ((v * 64 + (b₁ - 128)) * 64 + (b₂ - 128))) =
      [UInt8.ofNat (v + 224), UInt8.ofNat b₁, UInt8.ofNat b₂] := by
  have hva : ((v * 64 + (b₁ - 128)) * 64 + (b₂ - 128)).isValidChar := by
    rw [Nat.isValidChar]
    omega
  rw [String.utf8EncodeChar, toNat_val_charOfNat hva]
  rw [if_neg (by omega), if_neg (by omega), if_pos (by omega)]
  congr <;> omega

theorem utf8EncodeChar_four (hv : v < 5) (h₁ : 128 ≤ b₁ ∧ b₁ < 192) (h₂ : 128 ≤ b₂ ∧ b₂ < 192)
    (h₃ : 128 ≤ b₃ ∧ b₃ < 192) (hl : v = 0 → 144 ≤ b₁) (hh : v = 4 → b₁ < 144) :
    String.utf8EncodeChar (Char.ofNat (((v * 64 + (b₁ - 128)) * 64 + (b₂ - 128)) * 64 + (b₃ - 128))) =
      [UInt8.ofNat (v + 240), UInt8.ofNat b₁, UInt8.ofNat b₂, UInt8.ofNat b₃] := by
  have hva : (((v * 64 + (b₁ - 128)) * 64 + (b₂ - 128)) * 64 + (b₃ - 128)).isValidChar := by
    rw [Nat.isValidChar]
    omega
  rw [String.utf8EncodeChar, toNat_val_charOfNat hva]
  rw [if_neg (by omega), if_neg (by omega), if_neg (by omega)]
  congr <;> omega

end Char

section Step

variable {owed lo hi value size size' : Nat} {b : UInt8} {bytes : Bytes} {c : Char}

theorem utf8Tail_succ (h : utf8Tail (owed + 1) lo hi value size bytes = .char c size') :
    ∃ (b : UInt8) (rest : Bytes), bytes = b :: rest ∧ (lo ≤ b.toNat ∧ b.toNat ≤ hi) ∧
      utf8Tail owed 128 191 (value * 64 + (b.toNat - 128)) (size + 1) rest = .char c size' := by
  cases bytes with
  | nil => cases h
  | cons b rest =>
    rw [utf8Tail] at h
    split at h
    next hb => exact ⟨b, rest, rfl, by simpa using hb, h⟩
    · cases h

theorem utf8Step_encodes (h : utf8Step b bytes = .char c size) :
    b :: bytes = String.utf8EncodeChar c ++ bytes.drop (size - 1) := by
  have hb := b.toNat_lt
  have hf : ∀ {n : Nat}, n = b.toNat → UInt8.ofNat n = b := fun hn => by
    rw [hn, UInt8.ofNat_toNat]
  have htwo : ∀ {v : Nat}, v + 192 = b.toNat → 2 ≤ v → v < 32 → utf8Tail 1 128 191 v 1 bytes = .char c size →
      b :: bytes = String.utf8EncodeChar c ++ bytes.drop (size - 1) := by
    intro v hv hl hh h
    obtain ⟨b₁, rest, rfl, h₁, h⟩ := utf8Tail_succ h
    obtain ⟨rfl, rfl⟩ := Utf8Step.char.inj h
    rw [utf8EncodeChar_two hl hh (by omega), hf hv, UInt8.ofNat_toNat]
    rfl
  have ht : ∀ {v lo hi : Nat}, v + 224 = b.toNat → v < 16 → (128 ≤ lo ∧ hi < 192) → (v = 0 → 160 ≤ lo) →
      (v = 13 → hi < 160) → utf8Tail 2 lo hi v 1 bytes = .char c size →
      b :: bytes = String.utf8EncodeChar c ++ bytes.drop (size - 1) := by
    intro v lo hi hv hh hr hlo hhi h
    obtain ⟨b₁, rest, rfl, h₁, h⟩ := utf8Tail_succ h
    obtain ⟨b₂, rest, rfl, h₂, h⟩ := utf8Tail_succ h
    obtain ⟨rfl, rfl⟩ := Utf8Step.char.inj h
    rw [utf8EncodeChar_three hh (by omega) (by omega) (by omega) (by omega), hf hv,
      UInt8.ofNat_toNat, UInt8.ofNat_toNat]
    rfl
  have hfo : ∀ {v lo hi : Nat}, v + 240 = b.toNat → v < 5 → (128 ≤ lo ∧ hi < 192) → (v = 0 → 144 ≤ lo) →
      (v = 4 → hi < 144) → utf8Tail 3 lo hi v 1 bytes = .char c size →
      b :: bytes = String.utf8EncodeChar c ++ bytes.drop (size - 1) := by
    intro v lo hi hv hh hr hlo hhi h
    obtain ⟨b₁, rest, rfl, h₁, h⟩ := utf8Tail_succ h
    obtain ⟨b₂, rest, rfl, h₂, h⟩ := utf8Tail_succ h
    obtain ⟨b₃, rest, rfl, h₃, h⟩ := utf8Tail_succ h
    obtain ⟨rfl, rfl⟩ := Utf8Step.char.inj h
    rw [utf8EncodeChar_four hh (by omega) (by omega) (by omega) (by omega) (by omega), hf hv,
      UInt8.ofNat_toNat, UInt8.ofNat_toNat, UInt8.ofNat_toNat]
    rfl
  rw [utf8Step] at h
  simp only [beq_iff_eq] at h
  split at h
  · obtain ⟨rfl, rfl⟩ := Utf8Step.char.inj h
    rw [utf8EncodeChar_one (by omega), UInt8.ofNat_toNat]
    rfl
  split at h
  · cases h
  split at h
  · exact htwo (by omega) (by omega) (by omega) h
  split at h
  · exact ht (by omega) (by omega) (by omega) (by omega) (by omega) h
  split at h
  · exact ht (by omega) (by omega) (by omega) (by omega) (by omega) h
  split at h
  · exact ht (by omega) (by omega) (by omega) (by omega) (by omega) h
  split at h
  · exact hfo (by omega) (by omega) (by omega) (by omega) (by omega) h
  split at h
  · exact hfo (by omega) (by omega) (by omega) (by omega) (by omega) h
  split at h
  · exact hfo (by omega) (by omega) (by omega) (by omega) (by omega) h
  · cases h

end Step

/-! ## Texts -/

theorem decodeUtf8Go_encodes : ∀ {bytes : Bytes} {done : Text} {pos skip : Nat} {s : Text},
    decodeUtf8Go done pos skip bytes = .ok s → ∃ rest, s = done.reverse ++ rest ∧ encodeUtf8 rest = bytes.drop skip
  | [], done, _, _, s, h => by
    obtain rfl : done.reverse = s := by simpa [decodeUtf8Go] using h
    exact ⟨[], by simp, by simp [encodeUtf8]⟩
  | _ :: bytes, done, pos, skip + 1, s, h => @decodeUtf8Go_encodes bytes done (pos + 1) skip s h
  | b :: bytes, done, pos, 0, s, h => by
    rw [decodeUtf8Go] at h
    split at h
    next c size hs =>
      obtain ⟨rest, rfl, hr⟩ := decodeUtf8Go_encodes h
      refine ⟨c :: rest, by simp, ?_⟩
      rw [encodeUtf8, flatMap_cons, drop_zero, utf8Step_encodes hs, ← hr]
      rfl
    · cases h

theorem encodeUtf8_of_decodeUtf8 {bytes : Bytes} (h : decodeUtf8 bytes = .ok s) : encodeUtf8 s = bytes := by
  obtain ⟨rest, rfl, hr⟩ := decodeUtf8Go_encodes h
  exact hr

theorem decodeAsciiGo_eq_ok : ∀ {bytes : Bytes} {done : Text} {pos : Nat} {s : Text},
    decodeAsciiGo done pos bytes = .ok s → s = done.reverse ++ decodeLatin1 bytes ∧ ∀ b ∈ bytes, b.toNat < 128
  | [], done, _, s, h => by
    obtain rfl := Except.ok.inj h
    simp [decodeLatin1]
  | b :: bytes, done, pos, s, h => by
    rw [decodeAsciiGo] at h
    split at h
    next hb =>
      obtain ⟨rfl, hby⟩ := decodeAsciiGo_eq_ok h
      exact ⟨by simp [decodeLatin1], forall_mem_cons.mpr ⟨hb, hby⟩⟩
    · cases h

theorem encodeBelow?_of_decodeLatin1 {limit : Nat} {bytes : Bytes} (h : ∀ b ∈ bytes, b.toNat < limit) :
    encodeBelow? limit (decodeLatin1 bytes) = some bytes := by
  have hc : ∀ b : UInt8, (Char.ofNat b.toNat).toNat = b.toNat := fun b =>
    toNat_val_charOfNat (.inl (Nat.lt_trans b.toNat_lt (by decide)))
  have ha : (decodeLatin1 bytes).all (fun c => c.toNat < limit) := by
    simpa [decodeLatin1, hc] using h
  have hb : (decodeLatin1 bytes).map (fun c => UInt8.ofNat c.toNat) = bytes := by
    rw [decodeLatin1, map_map]
    refine (map_congr_left fun b _ => ?_).trans (map_id _)
    rw [Function.comp_apply, hc, UInt8.ofNat_toNat, id_eq]
  rw [encodeBelow?, if_pos ha, hb]

theorem Codec.encode?_of_decode {bytes : Bytes} (h : codec.decode bytes = .ok s)
    (hm : codec = .utf8Signed → byteOrderMark <+: bytes) : codec.encode? s = some bytes := by
  cases codec with
  | utf8 => exact congrArg some (encodeUtf8_of_decodeUtf8 h)
  | utf8Signed =>
    obtain ⟨rest, rfl⟩ := hm rfl
    have h : decodeUtf8 rest = .ok s := h
    exact congrArg (fun tail => some (byteOrderMark ++ tail)) (encodeUtf8_of_decodeUtf8 h)
  | latin1 =>
    obtain rfl := Except.ok.inj h
    exact encodeBelow?_of_decodeLatin1 fun b _ => b.toNat_lt
  | ascii =>
    obtain ⟨rfl, hb⟩ := decodeAsciiGo_eq_ok h
    exact encodeBelow?_of_decodeLatin1 hb

/-! ## The byte order mark -/

theorem eq_of_ofLabel?_signed (h : Codec.ofLabel? label = some .utf8Signed) : label = "utf-8-sig" := by
  rw [Codec.ofLabel?] at h
  split at h
  · cases h
  split at h
  next hl => exact beq_iff_eq.mp hl
  split at h
  · cases h
  · split at h <;> cases h

theorem declaredEncoding_unsigned {line : Bytes} (h : (declaredEncoding line false).outcome = .ok (some label)) :
    Codec.ofLabel? label ≠ some .utf8Signed := by
  intro hsi
  obtain rfl := eq_of_ofLabel?_signed hsi
  rw [declaredEncoding] at h
  split at h
  · cases h
  split at h
  · cases h
  dsimp only at h
  split at h
  next standard hs =>
    rw [pure_bind] at h
    split at h
    · cases h
    · obtain rfl := Option.some.inj (Except.ok.inj h)
      rw [standardLabel?] at hs
      split at hs
      · cases hs
      · split at hs <;> cases hs
  next hs =>
    obtain ⟨-, -, h⟩ := Run.bind_eq_ok.mp h
    rw [pure_bind] at h
    split at h
    · cases h
    · rw [Option.some.inj (Except.ok.inj h)] at hs
      cases hs

theorem firstByteLine_isPrefix : ∀ bytes : Bytes, firstByteLine bytes <+: bytes
  | [] => nil_prefix
  | b :: bytes => by
    rw [firstByteLine]
    split
    · exact ⟨bytes, rfl⟩
    · exact (prefix_cons_inj b).mpr (firstByteLine_isPrefix bytes)

theorem byteOrderMark_of_encodingOf {bytes : Bytes} (h : (encodingOf bytes).outcome = .ok label)
    (hs : Codec.ofLabel? label = some .utf8Signed) : byteOrderMark <+: bytes := by
  rw [encodingOf, encodingOfLines] at h
  cases hm : byteOrderMark.isPrefixOf (firstByteLine bytes) with
  | true => exact ( isPrefixOf_iff_prefix.mp hm).trans (firstByteLine_isPrefix bytes)
  | false =>
    rw [hm] at h
    dsimp only at h
    have hd : ∀ {line : Bytes} {found : Option Text}, (declaredEncoding line false).outcome = .ok found →
        found ≠ some label := fun hfo heq =>
      declaredEncoding_unsigned (heq ▸ hfo) hs
    have hde : ("utf-8" : Text) ≠ label := by
      rintro rfl
      cases hs
    split at h
    · exact absurd (Except.ok.inj h) hde
    · rw [Bool.false_and, if_neg Bool.false_ne_true] at h
      obtain ⟨first, hf, h⟩ := Run.bind_eq_ok.mp h
      split at h
      · exact absurd (congrArg some (Except.ok.inj h)) (hd hf)
      · obtain ⟨second, hse, h⟩ := Run.bind_eq_ok.mp h
        split at h
        · exact absurd (congrArg some (Except.ok.inj h)) (hd hse)
        · exact absurd (Except.ok.inj h) hde

/-! ## ASCII stands for itself -/

/-- A character of ASCII has its own byte, and no other character has a byte of ASCII. -/
def Transparent (enc : Char → Bytes) (c : Char) : Prop :=
  (c.toNat < 128 → enc c = [UInt8.ofNat c.toNat]) ∧
    (128 ≤ c.toNat → enc c ≠ [] ∧ ∀ b ∈ enc c, 128 ≤ b.toNat)

theorem transparent_utf8 (c : Char) : Transparent String.utf8EncodeChar c := by
  rw [Transparent, String.utf8EncodeChar]
  generalize hv : c.val.toNat = v
  have hc : c.toNat = v := hv
  rw [hc]
  refine ⟨fun h => if_pos (by omega), fun h => ?_⟩
  rw [if_neg (by omega)]
  split
  · simp
    omega
  split
  · simp
    omega
  · simp
    omega

theorem Codec.exists_transparent {bytes : Bytes} (h : codec.encode? s = some bytes) :
    ∃ (mark : Bytes) (enc : Char → Bytes), bytes = mark ++ s.flatMap enc ∧ (∀ b ∈ mark, 128 ≤ b.toNat) ∧
      ∀ c ∈ s, Transparent enc c := by
  have hbe : ∀ {limit : Nat}, limit ≤ 256 → encodeBelow? limit s = some bytes →
      bytes = [] ++ s.flatMap (fun c => [UInt8.ofNat c.toNat]) ∧
        ∀ c ∈ s, Transparent (fun c => [UInt8.ofNat c.toNat]) c := by
    intro limit hl h
    rw [encodeBelow?] at h
    split at h
    next ha =>
      obtain rfl := Option.some.inj h
      refine ⟨map_eq_flatMap, fun c hc => ⟨fun _ => rfl, fun hbeyond => ⟨by simp, ?_⟩⟩⟩
      have hc : c.toNat < limit := by simpa using all_eq_true.mp ha c hc
      simp
      omega
    · cases h
  cases codec with
  | utf8 =>
    obtain rfl := Option.some.inj h
    exact ⟨[], _, rfl, by simp, fun c _ => transparent_utf8 c⟩
  | utf8Signed =>
    obtain rfl := Option.some.inj h
    exact ⟨byteOrderMark, _, rfl, by decide +kernel, fun c _ => transparent_utf8 c⟩
  | latin1 =>
    obtain ⟨hb, ht⟩ := hbe (by decide) h
    exact ⟨[], _, hb, by simp, ht⟩
  | ascii =>
    obtain ⟨hb, ht⟩ := hbe (by decide) h
    exact ⟨[], _, hb, by simp, ht⟩

theorem Codec.mem_of_encode? {bytes : Bytes} (h : codec.encode? s = some bytes)
    {c : Char} (hc : c.toNat < 128) : UInt8.ofNat c.toNat ∈ bytes ↔ c ∈ s := by
  obtain ⟨mark, enc, rfl, hm, he⟩ := Codec.exists_transparent h
  have hb : (UInt8.ofNat c.toNat).toNat = c.toNat := by simp; omega
  rw [mem_append, mem_flatMap]
  constructor
  · rintro (hin | ⟨d, hd, hin⟩)
    · have := hm _ hin
      omega
    · by_cases ha : d.toNat < 128
      · rw [(he d hd).1 ha, mem_singleton] at hin
        have heq : c.toNat = d.toNat := by
          rw [← hb, hin]
          simp
          omega
        rwa [Char.toNat_inj.mp heq]
      · have := ((he d hd).2 (by omega)).2 _ hin
        omega
  · intro hin
    exact .inr ⟨c, hin, by rw [(he c hin).1 hc]; exact mem_singleton_self _⟩

theorem Codec.getLast?_of_encode? {bytes : Bytes} (h : codec.encode? s = some bytes)
    (hl : bytes.getLast? = some 10) : s.getLast? = some '\n' := by
  obtain ⟨mark, enc, rfl, hm, he⟩ := Codec.exists_transparent h
  rcases eq_nil_or_concat s with rfl | ⟨front, c, rfl⟩
  · rw [flatMap_nil, append_nil] at hl
    have := hm 10 (mem_of_getLast? hl)
    exact absurd this (by decide)
  · rw [concat_eq_append] at hl he ⊢
    have hc := he c (by simp)
    rw [flatMap_append, flatMap_singleton, ← append_assoc] at hl
    by_cases ha : c.toNat < 128
    · rw [hc.1 ha, getLast?_concat] at hl
      have heq : c.toNat = ('\n').toNat := by
        have := congrArg UInt8.toNat (Option.some.inj hl)
        simp at this
        change c.toNat = 10
        omega
      rw [Char.toNat_inj.mp heq, getLast?_concat]
    · obtain ⟨hne, hb⟩ := hc.2 (by omega)
      rw [getLast?_append, getLast?_eq_some_getLast hne, Option.some_or] at hl
      have hmem := getLast_mem hne
      rw [Option.some.inj hl] at hmem
      exact absurd (hb 10 hmem) (by decide)

/-! ## Line ends -/

theorem foldl_newlineStep : ∀ (s done : Text), '\r' ∉ s → (s.foldl newlineStep (done, false)).1 = s.reverse ++ done
  | [], _, _ => rfl
  | c :: s, done, h => by
    have hc : c ≠ '\r' := (ne_of_not_mem_cons h).symm
    have hs : newlineStep (done, false) c = (c :: done, false) := by
      rw [newlineStep, if_neg (by simpa using hc), Bool.and_false, if_neg Bool.false_ne_true]
    rw [foldl_cons, hs, foldl_newlineStep s _ (not_mem_of_not_mem_cons h), reverse_cons, append_assoc]
    rfl

theorem universalNewlines_of_notMem (h : '\r' ∉ s) : universalNewlines s = s := by
  rw [universalNewlines, foldl_newlineStep s [] h, append_nil, reverse_reverse]

theorem return_notMem_universalNewlines (s : Text) : '\r' ∉ universalNewlines s := by
  have hf : ∀ (s : Text) (r : Text × Bool), '\r' ∉ r.1 → '\r' ∉ (s.foldl newlineStep r).1 := by
    intro s
    induction s with
    | nil => exact fun _ hr => hr
    | cons c s ih =>
      intro r hr
      refine ih _ ?_
      rw [newlineStep]
      split
      · simp [hr]
      next hc =>
      split
      · exact hr
      · rw [mem_cons, not_or]
        exact ⟨fun heq => hc (beq_iff_eq.mpr heq.symm), hr⟩
  rw [universalNewlines, mem_reverse]
  exact hf s _ not_mem_nil

end QtMigration
