/-!
# Terminal styling

Colours and other styling reach a terminal as control sequences: an escape
character, a bracket, parameters made of digits, `;` and `?`, and a letter.
Output that does not go to a terminal is written without them.

The text is read once from left to right.  `held` is the beginning of a
sequence that is not complete yet, last character first; it is given back as
soon as it turns out to be no sequence.
-/

namespace LoxCalc.Text

def escapeCharacter : Char := '\x1b'

/-- The characters that may stand between the bracket and the final letter. -/
def isStylingParameter (c : Char) : Bool :=
  c.isDigit || c == ';' || c == '?'

/-- The text that is left when `held` has been read and not yet written. -/
def unstyledFrom : List Char → List Char → List Char
  | held, [] => held.reverse
  | [], c :: rest =>
    if c = escapeCharacter then unstyledFrom [c] rest else c :: unstyledFrom [] rest
  | [e], c :: rest =>
    if c = '[' then unstyledFrom [c, e] rest
    else if c = escapeCharacter then e :: unstyledFrom [c] rest
    else e :: c :: unstyledFrom [] rest
  | held, c :: rest =>
    if c.isAlpha then unstyledFrom [] rest
    else if isStylingParameter c then unstyledFrom (c :: held) rest
    else if c = escapeCharacter then held.reverse ++ unstyledFrom [c] rest
    else held.reverse ++ c :: unstyledFrom [] rest

def unstyled (text : String) : String :=
  String.ofList (unstyledFrom [] text.toList)

end LoxCalc.Text
