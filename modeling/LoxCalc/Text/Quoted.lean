import LoxCalc.Text.Blank

/-!
# Quoted text

How a piece of text is shown inside a message: between quotes, with what would
not print written as an escape.  Single quotes are used, unless the text holds
a single quote and no double quote; so at most one of the two kinds of quote
needs a backslash, and only in text that holds both.
-/

namespace LoxCalc.Text

def quoteFor (text : List Char) : Char :=
  if text.contains '\'' && !text.contains '"' then '"' else '\''

/-- The lower-case hexadecimal digits of `n`, at least `width` of them. -/
def hexadecimal (width n : Nat) : List Char :=
  let digits := Nat.toDigits 16 n
  List.replicate (width - digits.length) '0' ++ digits

/-- A character that a message does not show as it is: a control character, or
a blank other than the space. -/
def isUnprintable (c : Char) : Bool :=
  c.toNat < 0x20 || (0x7F ≤ c.toNat && c.toNat < 0xA0) || (isBlank c && c != ' ')

def escaped (quote c : Char) : List Char :=
  if c = quote || c = '\\' then ['\\', c]
  else if c = '\n' then ['\\', 'n']
  else if c = '\r' then ['\\', 'r']
  else if c = '\t' then ['\\', 't']
  else if isUnprintable c then
    if c.toNat < 0x100 then '\\' :: 'x' :: hexadecimal 2 c.toNat
    else '\\' :: 'u' :: hexadecimal 4 c.toNat
  else [c]

def quoted (text : String) : String :=
  let quote := quoteFor text.toList
  String.ofList (quote :: (text.toList.flatMap (escaped quote) ++ [quote]))

end LoxCalc.Text
