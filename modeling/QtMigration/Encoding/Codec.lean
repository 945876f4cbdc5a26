import QtMigration.Text.Quoted

/-!
# Encoding/Codec — the four encodings a source file may have

A codec turns bytes into text and back. Decoding stops at the first byte sequence that the encoding does not
allow; the fault says where it is, how many bytes belong to it and what is wrong.
-/

namespace QtMigration

abbrev Bytes := List UInt8

/-- An encoding. -/
inductive Codec
  | utf8
  /-- UTF-8 behind a byte order mark. -/
  | utf8Signed
  | latin1
  | ascii
  deriving DecidableEq, Repr

/-- What is wrong with a byte sequence. -/
inductive DecodeReason
  | invalidStart
  | invalidContinuation
  | unexpectedEnd
  | beyondAscii
  deriving DecidableEq, Repr

/-- A byte sequence that an encoding does not allow: `size` bytes at `start`. -/
structure DecodeFault where
  codecName : Text
  start : Nat
  size : Nat
  first : UInt8
  reason : DecodeReason
  deriving DecidableEq, Repr

namespace DecodeReason

def message : DecodeReason → Text
  | invalidStart => "invalid start byte"
  | invalidContinuation => "invalid continuation byte"
  | unexpectedEnd => "unexpected end of data"
  | beyondAscii => "ordinal not in range(128)"

end DecodeReason

namespace DecodeFault

/-- The wording of a fault: one byte is shown, a longer sequence is given by its ends. -/
def message (f : DecodeFault) : Text :=
  let subject : Text :=
    if f.size ≤ 1 then
      "byte 0x" ++ Text.hexDigits 2 f.first.toNat ++ " in position " ++ Text.ofNat f.start
    else
      "bytes in position " ++ Text.ofNat f.start ++ "-" ++ Text.ofNat (f.start + f.size - 1)
  Text.quoted f.codecName ++ " codec can't decode " ++ subject ++ ": " ++ f.reason.message

end DecodeFault

/-! ## UTF-8 -/

def byteOrderMark : Bytes := [0xEF, 0xBB, 0xBF]

/-- What stands at the front of a byte sequence: a character and its size, or a faulty sequence. -/
inductive Utf8Step
  | char (c : Char) (size : Nat)
  | bad (size : Nat) (reason : DecodeReason)
  deriving DecidableEq, Repr

/-- The `owed` further bytes of a character: the next one lies between `lo` and `hi`, the later ones are any
continuation bytes. -/
def utf8Tail : Nat → Nat → Nat → Nat → Nat → Bytes → Utf8Step
  | 0, _, _, value, size, _ => .char (Char.ofNat value) size
  | _ + 1, _, _, _, size, [] => .bad size .unexpectedEnd
  | owed + 1, lo, hi, value, size, b :: bs =>
    if lo ≤ b.toNat && b.toNat ≤ hi then
      utf8Tail owed 0x80 0xBF (value * 64 + (b.toNat - 0x80)) (size + 1) bs
    else .bad size .invalidContinuation

/-- The character that begins with the byte `b`. -/
def utf8Step (b : UInt8) (rest : Bytes) : Utf8Step :=
  let n := b.toNat
  if n < 0x80 then .char (Char.ofNat n) 1
  else if n < 0xC2 then .bad 1 .invalidStart
  else if n < 0xE0 then utf8Tail 1 0x80 0xBF (n - 0xC0) 1 rest
  else if n == 0xE0 then utf8Tail 2 0xA0 0xBF 0 1 rest
  else if n == 0xED then utf8Tail 2 0x80 0x9F 0xD 1 rest
  else if n < 0xF0 then utf8Tail 2 0x80 0xBF (n - 0xE0) 1 rest
  else if n == 0xF0 then utf8Tail 3 0x90 0xBF 0 1 rest
  else if n < 0xF4 then utf8Tail 3 0x80 0xBF (n - 0xF0) 1 rest
  else if n == 0xF4 then utf8Tail 3 0x80 0x8F 4 1 rest
  else .bad 1 .invalidStart

/-- Walk of `decodeUtf8`: `done` holds the characters so far, last one first, and `skip` counts the
bytes left of the present one. -/
def decodeUtf8Go (done : Text) (pos : Nat) : Nat → Bytes → Except DecodeFault Text
  | _, [] => .ok done.reverse
  | skip + 1, _ :: bs => decodeUtf8Go done (pos + 1) skip bs
  | 0, b :: bs =>
    match utf8Step b bs with
    | .char c size => decodeUtf8Go (c :: done) (pos + 1) (size - 1) bs
    | .bad size reason => .error ⟨"utf-8", pos, size, b, reason⟩

def decodeUtf8 (bytes : Bytes) : Except DecodeFault Text := decodeUtf8Go [] 0 0 bytes

/-- The text of a byte sequence that may begin with a byte order mark, which is dropped. -/
def decodeUtf8Signed (bytes : Bytes) : Except DecodeFault Text :=
  if byteOrderMark.isPrefixOf bytes then decodeUtf8 (bytes.drop 3)
  else if bytes.isPrefixOf byteOrderMark then .ok []
  else decodeUtf8 bytes

def encodeUtf8 (s : Text) : Bytes := s.flatMap String.utf8EncodeChar

/-! ## One byte a character -/

/-- The text whose characters are the bytes' code points. -/
def decodeLatin1 (bytes : Bytes) : Text := bytes.map fun b => Char.ofNat b.toNat

def decodeAsciiGo (done : Text) (pos : Nat) : Bytes → Except DecodeFault Text
  | [] => .ok done.reverse
  | b :: bs =>
    if b.toNat < 0x80 then decodeAsciiGo (Char.ofNat b.toNat :: done) (pos + 1) bs
    else .error ⟨"ascii", pos, 1, b, .beyondAscii⟩

def decodeAscii (bytes : Bytes) : Except DecodeFault Text := decodeAsciiGo [] 0 bytes

/-- One byte for every character, if all code points are below `limit`. -/
def encodeBelow? (limit : Nat) (s : Text) : Option Bytes :=
  if s.all fun c => c.toNat < limit then some (s.map fun c => UInt8.ofNat c.toNat) else none

/-! ## Codecs -/

namespace Codec

def ofLabel? (label : Text) : Option Codec :=
  if label == "utf-8" || label == "utf8" then some utf8
  else if label == "utf-8-sig" then some utf8Signed
  else if label == "iso-8859-1" || label == "latin1" then some latin1
  else if label == "ascii" || label == "us-ascii" then some ascii
  else none

def decode (codec : Codec) (bytes : Bytes) : Except DecodeFault Text :=
  match codec with
  | utf8 => decodeUtf8 bytes
  | utf8Signed => decodeUtf8Signed bytes
  | latin1 => .ok (decodeLatin1 bytes)
  | ascii => decodeAscii bytes

/-- The bytes of a text, if the encoding has them all. -/
def encode? (codec : Codec) (s : Text) : Option Bytes :=
  match codec with
  | utf8 => some (encodeUtf8 s)
  | utf8Signed => some (byteOrderMark ++ encodeUtf8 s)
  | latin1 => encodeBelow? 0x100 s
  | ascii => encodeBelow? 0x80 s

end Codec

/-! ## Line ends -/

/-- One character of `universalNewlines`: the text so far, last character first, and whether a
carriage return has just been read. -/
def newlineStep (r : Text × Bool) (c : Char) : Text × Bool :=
  if c == '\r' then ('\n' :: r.1, true)
  else if c == '\n' && r.2 then (r.1, false)
  else (c :: r.1, false)

/-- **Universal line ends**: a carriage return, with or without a newline behind it, is read as a
newline. -/
def universalNewlines (s : Text) : Text := (s.foldl newlineStep ([], false)).1.reverse

end QtMigration
