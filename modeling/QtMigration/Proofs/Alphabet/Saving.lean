import QtMigration.Proofs.Alphabet.Api
import QtMigration.Proofs.Alphabet.Signals
import QtMigration.Proofs.Source.Lossless

/-!
# Proofs/Alphabet/Saving — what is written can be encoded as the source was

**A conversion that gets as far as writing writes** (`saving_succeeds`).
-/

namespace QtMigration

variable {bytes : Bytes} {lines out : List Text} {target : Target} {path s : Text}

/-! ## A whole conversion -/

namespace Alphabet

variable {A : Alphabet}

theorem signalPasses_spells {s : Survey} {st : Declaring} (hl : A.SpellsAll lines)
    (h : (if s.signals then convertSignals target lines else pure ⟨lines, false⟩).outcome = .ok st) :
    A.SpellsAll st.lines := by
  split at h
  · exact convertSignals_spells hl h
  · obtain rfl := Except.ok.inj h
    exact hl

theorem runPasses_spells {s : Survey} {indent : Text}
    (hl : A.SpellsAll lines) (h : (runPasses target s indent lines).outcome = .ok out) :
    A.SpellsAll out := by
  cases target with
  | old =>
    obtain ⟨st, p', hst, hi⟩ := runPasses_old_stages h
    exact updateImports_spells (signalPasses_spells hl hst) hi
  | new =>
    obtain ⟨st, named, p, imported, p', hst, hn, hi, ha⟩ := runPasses_stages h
    obtain ⟨cut, hc, hst⟩ := Run.bind_eq_ok.mp hst
    have hc := removeConversionsGo_spells 0 [] lines A.spellsAll_nil hl hc
    have hs := signalPasses_spells hc hst
    have hn := retargetAll_spells _ _ _ (modulePasses_isPlain s) hs hn
    exact convertApi_spells (updateImports_spells hn hi) ha

theorem convertLines_spells (hl : A.SpellsAll lines)
    (h : (convertLines target lines).outcome = .ok (some out)) : A.SpellsAll out := by
  obtain ⟨-, indent, ho⟩ := exists_runPasses h
  exact runPasses_spells hl ho

theorem collectNotes_spells (hli : A.SpellsAll lines) : A.SpellsAll (collectNotes lines).1 :=
  hli.map fun line hl => by
    rw [unmarked]
    split
    · exact hl.replaceAll _ (A.spells_of_isPlain (by decide))
    · exact hl

/-! ## The alphabet of a source -/

def ofText (s : Text) : Alphabet where
  has c := c ∈ s ∨ c.toNat < 128
  plain _ hc := .inr (by simpa using (Bool.and_eq_true_iff.mp hc).1)

theorem spells_newlineStep {r : Text × Bool} {c : Char} (hr : A.Spells r.1) (hc : A.has c) :
    A.Spells (newlineStep r c).1 := by
  rw [newlineStep]
  split
  · exact spells_cons.mpr ⟨A.plain '\n' (by decide), hr⟩
  split
  · exact hr
  · exact spells_cons.mpr ⟨hc, hr⟩

theorem Spells.universalNewlines {s : Text} (hs : A.Spells s) : A.Spells (universalNewlines s) := by
  suffices hf : ∀ (s : Text) (r : Text × Bool), A.Spells s → A.Spells r.1 →
      A.Spells (s.foldl newlineStep r).1 from (hf s ([], false) hs A.spells_nil).reverse
  intro s
  induction s with
  | nil => exact fun r _ hr => hr
  | cons c s ih =>
    intro r hs hr
    obtain ⟨hc, hs⟩ := spells_cons.mp hs
    exact ih _ hs (spells_newlineStep hr hc)

theorem Spells.ended (hs : A.Spells s) : A.Spells s.ended := by
  rw [Text.ended]
  split
  · exact hs
  split
  · exact hs
  · exact hs.append_plain (by decide)

theorem spellsAll_of_readSource (h : (readSource path (.ok bytes)).outcome = .ok (.lines lines)) :
    ∃ label codec decoded, (readSource path (.ok bytes)).encoding = some label ∧
      Codec.ofLabel? label = some codec ∧ codec.decode bytes = .ok decoded ∧
      (ofText decoded).SpellsAll lines := by
  obtain ⟨label, codec, decoded, -, hl, hco, hd, hf⟩ := exists_decoded_of_readSource h
  have ha : (ofText decoded).Spells lines.flatten := by
    rw [hf]
    exact (show (ofText decoded).Spells decoded from fun c hc => .inl hc).universalNewlines.ended
  exact ⟨label, codec, decoded, hl, hco, hd, spells_flatten.mp ha⟩

end Alphabet

/-! ## Codecs -/

theorem toNat_charOfNat_le (n : Nat) : (Char.ofNat n).toNat ≤ n := by
  by_cases h : n.isValidChar
  · rw [Char.ofNat, dif_pos h]
    exact Nat.le_refl n
  · rw [Char.ofNat, dif_neg h]
    exact Nat.zero_le n

theorem decodeAsciiGo_below : ∀ (bytes : Bytes) (done : Text) (pos : Nat) {s : Text},
    (∀ c ∈ done, c.toNat < 128) → decodeAsciiGo done pos bytes = .ok s → ∀ c ∈ s, c.toNat < 128
  | [], done, _, s, hd, h => by
    obtain rfl := Except.ok.inj h
    exact fun c hc => hd c (List.mem_reverse.mp hc)
  | b :: bytes, done, pos, s, hd, h => by
    rw [decodeAsciiGo] at h
    split at h
    next hb =>
      refine decodeAsciiGo_below bytes _ _ (List.forall_mem_cons.mpr ⟨?_, hd⟩) h
      exact Nat.lt_of_le_of_lt (toNat_charOfNat_le _) hb
    · cases h

theorem decodeLatin1_below : ∀ c ∈ decodeLatin1 bytes, c.toNat < 256 := by
  intro c hc
  obtain ⟨b, -, rfl⟩ := List.mem_map.mp hc
  exact Nat.lt_of_le_of_lt (toNat_charOfNat_le _) b.toNat_lt

theorem exists_encodeBelow? {limit : Nat} (h : ∀ c ∈ s, c.toNat < limit) :
    ∃ bytes, encodeBelow? limit s = some bytes :=
  ⟨_, if_pos (List.all_eq_true.mpr fun c hc => decide_eq_true (h c hc))⟩

theorem Codec.exists_encode? {codec : Codec} {decoded : Text}
    (h : codec.decode bytes = .ok decoded) (hs : (Alphabet.ofText decoded).Spells s) :
    ∃ bytes', codec.encode? s = some bytes' := by
  cases codec with
  | utf8 => exact ⟨_, rfl⟩
  | utf8Signed => exact ⟨_, rfl⟩
  | latin1 =>
    obtain rfl := Except.ok.inj h
    refine exists_encodeBelow? fun c hc => ?_
    rcases hs c hc with ho | ha
    · exact decodeLatin1_below c ho
    · omega
  | ascii =>
    refine exists_encodeBelow? fun c hc => ?_
    rcases hs c hc with ho | ha
    · exact decodeAsciiGo_below bytes [] 0 (by simp) h c ho
    · exact ha

/-! ## Saving -/

theorem convertSource_failure {file : Except FileFault Bytes}
    (hre : (readSource path file).outcome = .ok (.lines lines))
    (hr : (convertLines target lines).outcome = .ok (some out))
    (hb : (Codec.ofLabel? ((readSource path file).encoding.getD [])).bind
      (fun codec => codec.encode? (collectNotes out).1.flatten) = some bytes) :
    (convertSource target path file).failure = none := by
  have hf : (finish ((readSource path file).encoding.getD []) out).failure = none := by
    rw [finish]
    dsimp only
    rw [hb]
  rw [convertSource, Conversion.after, convertContent, Conversion.after, hre]
  dsimp only
  rw [convertRead]
  split
  next h => simp [h] at hr
  next h => simp [h] at hr
  next h =>
    rw [h] at hr
    obtain rfl := Option.some.inj (Except.ok.inj hr)
    exact hf

/-- **Saving does not fail.** -/
theorem saving_succeeds {target : Target} {path : Text} {bytes : Bytes} {lines out : List Text}
    (hread : (readSource path (.ok bytes)).outcome = .ok (.lines lines))
    (hrun : (convertLines target lines).outcome = .ok (some out)) :
    ∃ label codec decoded bytes', (readSource path (.ok bytes)).encoding = some label ∧
      Codec.ofLabel? label = some codec ∧ codec.decode bytes = .ok decoded ∧
      (∀ c ∈ (collectNotes out).1.flatten, c ∈ decoded ∨ c.toNat < 128) ∧
      codec.encode? (collectNotes out).1.flatten = some bytes' ∧
      (convertSource target path (.ok bytes)).saved? = some bytes' ∧
      (convertSource target path (.ok bytes)).failure = none := by
  obtain ⟨label, codec, decoded, hlabel, hcodec, hdecoded, hlines⟩ :=
    Alphabet.spellsAll_of_readSource hread
  have hout := Alphabet.collectNotes_spells (Alphabet.convertLines_spells hlines hrun)
  have htext : (Alphabet.ofText decoded).Spells (collectNotes out).1.flatten :=
    Alphabet.spells_flatten.mpr hout
  obtain ⟨bytes', hbytes⟩ := Codec.exists_encode? hdecoded htext
  have hwritten : (Codec.ofLabel? ((readSource path (.ok bytes)).encoding.getD [])).bind
      (fun codec => codec.encode? (collectNotes out).1.flatten) = some bytes' := by
    rw [hlabel, Option.getD_some, hcodec, Option.bind_some, hbytes]
  exact ⟨label, codec, decoded, bytes', hlabel, hcodec, hdecoded, htext, hbytes,
    (convertSource_saved? hread hrun).trans hwritten, convertSource_failure hread hrun hwritten⟩

/-- A source in a declared encoding of one byte a character, with a character beyond ASCII: the bytes of
`#coding:latin1⏎import PyQt4#QAbstractButton é`. -/
def latinSource : Bytes :=
  [35, 99, 111, 100, 105, 110, 103, 58, 108, 97, 116, 105, 110, 49, 10, 105, 109, 112, 111, 114,
   116, 32, 80, 121, 81, 116, 52, 35, 81, 65, 98, 115, 116, 114, 97, 99, 116, 66, 117, 116, 116,
   111, 110, 32, 233]

def latinLines : List Text := ["#coding:latin1\n", "import PyQt4#QAbstractButton é\n", ""]

/-- The same lines for the new library: the widgets are imported. -/
def latinOut : List Text :=
  ["#coding:latin1\n", "import PyQt5#QAbstractButton é\n", "from PyQt5.QtWidgets import *\n", ""]

theorem saving_succeeds_latinSource : (readSource "m.py" (.ok latinSource)).outcome = .ok (.lines latinLines) ∧
      (convertLines .new latinLines).outcome = .ok (some latinOut) ∧
      ∃ label codec decoded bytes', (readSource "m.py" (.ok latinSource)).encoding = some label ∧
        Codec.ofLabel? label = some codec ∧ codec.decode latinSource = .ok decoded ∧
        (∀ c ∈ (collectNotes latinOut).1.flatten, c ∈ decoded ∨ c.toNat < 128) ∧
        codec.encode? (collectNotes latinOut).1.flatten = some bytes' ∧
        (convertSource .new "m.py" (.ok latinSource)).saved? = some bytes' ∧
        (convertSource .new "m.py" (.ok latinSource)).failure = none := by
  have hread : (readSource "m.py" (.ok latinSource)).outcome = .ok (.lines latinLines) := by
    decide +kernel
  have hrun : (convertLines .new latinLines).outcome = .ok (some latinOut) := by decide +kernel
  exact ⟨hread, hrun, saving_succeeds hread hrun⟩

end QtMigration
