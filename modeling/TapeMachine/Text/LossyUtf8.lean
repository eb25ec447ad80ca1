/-! # Lossy UTF-8 decoding

    Reads any byte string as text.  Well-formed UTF-8 is decoded as it is; each
    maximal ill-formed part becomes one U+FFFD.  A part is cut as soon as a byte
    cannot continue the sequence begun before it, and that byte then begins
    again: so `e2 82 2b` reads as U+FFFD and `+`, and the three bytes of a
    surrogate `ed a0 80` read as three U+FFFD, because `a0` cannot follow `ed`.

    The decoder takes one byte at a time.  Between two bytes its state is the
    text read so far and the sequence begun, if one is. -/

namespace TapeMachine.Utf8

/-- Stands for an ill-formed part. -/
def replacement : Char := '\uFFFD'

/-- A sequence that has begun and is not complete: how many bytes are due, the
    range the next of them must lie in, and the code point bits read so far. -/
structure Pending where
  due : Nat
  low : UInt8
  high : UInt8
  bits : Nat
  deriving DecidableEq, Repr

/-- What a byte means at the start of a sequence. -/
inductive Lead where
  /-- A complete character. -/
  | char (c : Char)
  /-- The first byte of a longer sequence. -/
  | pending (p : Pending)
  /-- No sequence starts with this byte. -/
  | illFormed
  deriving DecidableEq, Repr

/-- Reads a byte at the start of a sequence.  The ranges for the second byte
    leave out overlong forms (`E0`, `F0`), surrogates (`ED`) and code points
    above U+10FFFF (`F4`). -/
def Lead.ofByte (b : UInt8) : Lead :=
  if b < 0x80 then .char (Char.ofNat b.toNat)
  else if b < 0xC2 then .illFormed
  else if b < 0xE0 then .pending ⟨1, 0x80, 0xBF, b.toNat % 32⟩
  else if b < 0xF0 then
    .pending ⟨2, if b = 0xE0 then 0xA0 else 0x80, if b = 0xED then 0x9F else 0xBF,
      b.toNat % 16⟩
  else if b < 0xF5 then
    .pending ⟨3, if b = 0xF0 then 0x90 else 0x80, if b = 0xF4 then 0x8F else 0xBF,
      b.toNat % 8⟩
  else .illFormed

/-- The state of the decoder between two bytes. -/
structure Decoder where
  text : String := ""
  pending : Option Pending := none
  deriving DecidableEq, Repr

namespace Decoder

/-- Reads a byte at the start of a sequence. -/
def start (text : String) (b : UInt8) : Decoder :=
  match Lead.ofByte b with
  | .char c => ⟨text.push c, none⟩
  | .pending p => ⟨text, some p⟩
  | .illFormed => ⟨text.push replacement, none⟩

/-- Reads the next byte. -/
def feed (d : Decoder) (b : UInt8) : Decoder :=
  match d.pending with
  | none => start d.text b
  | some p =>
      if p.low ≤ b ∧ b ≤ p.high then
        let bits := p.bits * 64 + b.toNat % 64
        if p.due ≤ 1 then ⟨d.text.push (Char.ofNat bits), none⟩
        else ⟨d.text, some ⟨p.due - 1, 0x80, 0xBF, bits⟩⟩
      else start (d.text.push replacement) b

/-- The text once no more bytes come; a sequence cut short is ill-formed. -/
def finish (d : Decoder) : String :=
  match d.pending with
  | none => d.text
  | some _ => d.text.push replacement

end Decoder

/-- The text of a byte string, with U+FFFD for each maximal ill-formed part. -/
def decodeLossy (bytes : List UInt8) : String :=
  (bytes.foldl Decoder.feed {}).finish

end TapeMachine.Utf8
