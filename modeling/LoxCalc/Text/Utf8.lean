/-!
# UTF-8

Bytes are read as UTF-8 whatever they are.  What is not well formed becomes
U+FFFD, once for each *maximal invalid subpart*: the longest beginning of a
well-formed sequence that stands there, or a single byte that begins none.

The reader is a machine with one step a byte.  Its state is the sequence that
has been opened and not yet closed, with the range in which the next byte has
to lie; the ranges alone exclude overlong forms, surrogates and values past
U+10FFFF.  **A refused byte is never swallowed**: it closes the open sequence
with one U+FFFD and is then read as if nothing had been open.
-/

namespace LoxCalc.Text.Utf8

def replacement : Char := '\uFFFD'

/-- A sequence that has been opened: the bits so far, the number of bytes that
are still to come, and the range of the next one. -/
structure Pending where
  bits : Nat
  remaining : Nat
  low : Nat
  high : Nat
  deriving DecidableEq, Repr

/-- What one byte does: the characters that it completes, and the sequence
that is open after it. -/
structure Effect where
  written : List Char
  pending : Option Pending
  deriving DecidableEq, Repr

def start (b : Nat) : Effect :=
  if b < 0x80 then ⟨[Char.ofNat b], none⟩
  else if b < 0xC2 then ⟨[replacement], none⟩
  else if b < 0xE0 then ⟨[], some ⟨b - 0xC0, 1, 0x80, 0xBF⟩⟩
  else if b = 0xE0 then ⟨[], some ⟨0, 2, 0xA0, 0xBF⟩⟩
  else if b = 0xED then ⟨[], some ⟨0xD, 2, 0x80, 0x9F⟩⟩
  else if b < 0xF0 then ⟨[], some ⟨b - 0xE0, 2, 0x80, 0xBF⟩⟩
  else if b = 0xF0 then ⟨[], some ⟨0, 3, 0x90, 0xBF⟩⟩
  else if b < 0xF4 then ⟨[], some ⟨b - 0xF0, 3, 0x80, 0xBF⟩⟩
  else if b = 0xF4 then ⟨[], some ⟨4, 3, 0x80, 0x8F⟩⟩
  else ⟨[replacement], none⟩

def Pending.next (p : Pending) (b : Nat) : Effect :=
  if p.low ≤ b ∧ b ≤ p.high then
    let bits := p.bits * 0x40 + (b - 0x80)
    if p.remaining ≤ 1 then ⟨[Char.ofNat bits], none⟩
    else ⟨[], some ⟨bits, p.remaining - 1, 0x80, 0xBF⟩⟩
  else ⟨replacement :: (start b).written, (start b).pending⟩

def step : Option Pending → Nat → Effect
  | none, b => start b
  | some p, b => p.next b

/-- The characters of `bytes`, read from the state `pending`. -/
def decodeFrom : Option Pending → List UInt8 → List Char
  | none, [] => []
  | some _, [] => [replacement]
  | pending, b :: rest =>
    let effect := step pending b.toNat
    effect.written ++ decodeFrom effect.pending rest

def decode (bytes : List UInt8) : List Char :=
  decodeFrom none bytes

def encode (text : List Char) : List UInt8 :=
  text.flatMap String.utf8EncodeChar

end LoxCalc.Text.Utf8
