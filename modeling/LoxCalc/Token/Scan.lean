import LoxCalc.Token.Segment
import LoxCalc.Text.Utf8

/-!
# Scanning

A scan gives every segment of the source its line and turns it into a token, a
lexical error, or nothing.  A segment carries the line on which it *ends*: the
line it starts on and the newlines inside it.  This is one rule for strings of
several lines, for a quote that is never closed and for a newline itself, which
is a blank that ends one line further down.

Scanning never stops early.  It gives the tokens and the errors apart, each in
the order of the source, and the line on which the source ends.
-/

namespace LoxCalc

/-- Source, either as text or as bytes that are to be read as UTF-8. -/
inductive Source where
  | text (s : String)
  | bytes (bs : List UInt8)
  deriving DecidableEq, Repr

def Source.characters : Source → List Char
  | .text s => s.toList
  | .bytes bs => Text.Utf8.decode bs

/-! ### Lexical errors -/

inductive LexicalError.Cause where
  | unexpectedCharacter
  | unterminatedString
  deriving DecidableEq, Repr

def LexicalError.Cause.message : LexicalError.Cause → String
  | .unexpectedCharacter => "Unexpected character."
  | .unterminatedString => "Unterminated string."

structure LexicalError where
  cause : LexicalError.Cause
  line : Nat
  deriving DecidableEq, Repr

/-! ### From segments to tokens -/

namespace Segment

def newlines (s : Segment) : Nat :=
  s.text.count '\n'

/-- The value of a number: the digits without the point, scaled by the places
after it. -/
def numberValue (whole fraction : List Char) : Number :=
  Decimal.toNumber false ⟨Nat.ofDigitChars 10 (whole ++ fraction) 0, -(fraction.length : Int)⟩

def meaning? : Segment → Option (Kind × Value)
  | .symbol kind => some (kind, .nil)
  | .string body => some (.string, .string (String.ofList body))
  | .number whole fraction => some (.number, .number (numberValue whole fraction))
  | .word text => some (Kind.ofWord text, .nil)
  | .blank _ | .comment _ | .unclosed _ | .stray _ => none

def token? (line : Nat) (s : Segment) : Option Token :=
  s.meaning?.map fun (kind, literal) => ⟨kind, String.ofList s.text, literal, line⟩

def error? (line : Nat) : Segment → Option LexicalError
  | .unclosed _ => some ⟨.unterminatedString, line⟩
  | .stray _ => some ⟨.unexpectedCharacter, line⟩
  | _ => none

end Segment

/-! ### Scans -/

structure Scan where
  /-- The tokens before the end of input. -/
  body : List Token
  errors : List LexicalError
  /-- The line on which the source ends. -/
  lastLine : Nat
  deriving DecidableEq, Repr

namespace Scan

/-- The scan of segments of which the first one starts on `line`. -/
def ofSegments (line : Nat) : List Segment → Scan
  | [] => ⟨[], [], line⟩
  | s :: rest =>
    let next := line + s.newlines
    let after := ofSegments next rest
    ⟨(s.token? next).toList ++ after.body, (s.error? next).toList ++ after.errors, after.lastLine⟩

def ofCharacters (text : List Char) : Scan :=
  ofSegments 1 (segments text)

def ofSource (source : Source) : Scan :=
  ofCharacters source.characters

/-- The token that closes the scan. -/
def stop (s : Scan) : Token :=
  Token.endOfInput s.lastLine

/-- The tokens when the source has been scanned `times` times over.  Every time
but the first there is nothing left to read, and one more end of input is put
after the tokens. -/
def tokensAfter (s : Scan) (times : Nat) : List Token :=
  s.body ++ List.replicate times s.stop

def tokens (s : Scan) : List Token :=
  s.tokensAfter 1

end Scan

end LoxCalc
