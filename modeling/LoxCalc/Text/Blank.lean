/-!
# White space

Two places trim text, and they do not agree on what is blank.  A number given
as text is trimmed of the characters with the property `White_Space`; the text
of a token also loses the four information separators U+001C to U+001F at its
end.

The blanks of the expression language itself are four ASCII characters and
belong to the scanner, not here.
-/

namespace LoxCalc.Text

/-- The characters with the property `White_Space`. -/
def isWhiteSpace (c : Char) : Bool :=
  let n := c.toNat
  (0x9 ≤ n && n ≤ 0xD) || n == 0x20 || n == 0x85 || n == 0xA0 || n == 0x1680 ||
    (0x2000 ≤ n && n ≤ 0x200A) || n == 0x2028 || n == 0x2029 || n == 0x202F ||
    n == 0x205F || n == 0x3000

/-- White space and the information separators U+001C to U+001F. -/
def isBlank (c : Char) : Bool :=
  isWhiteSpace c || (0x1C ≤ c.toNat && c.toNat ≤ 0x1F)

/-- A list without the longest run at its end on which `p` holds. -/
def dropEndWhile {α : Type} (p : α → Bool) (l : List α) : List α :=
  (l.reverse.dropWhile p).reverse

def trimWhile {α : Type} (p : α → Bool) (l : List α) : List α :=
  dropEndWhile p (l.dropWhile p)

end LoxCalc.Text
