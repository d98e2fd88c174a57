import LoxCalc.Value

/-!
# Tokens

A token has a kind, the text it was read from, the value it denotes and the
line it ends on.  The kinds are the punctuation and operators, three classes of
words (identifiers, strings and numbers are told apart by how they are read),
the keywords, and the end of input.

`Kind.spelling?` gives the kinds with a single spelling; the scanner reads the
keywords from it, and whoever builds a tree by hand can take the lexemes of its
operators from it.
-/

namespace LoxCalc

inductive Kind where
  | leftParen | rightParen | leftBrace | rightBrace
  | comma | dot | minus | plus | semicolon | slash | star | question | colon
  | bang | bangEqual | equal | equalEqual | greater | greaterEqual | less | lessEqual
  | identifier | string | number
  | andWord | classWord | elseWord | falseWord | funWord | forWord | ifWord | nilWord
  | orWord | printWord | returnWord | superWord | thisWord | trueWord | varWord | whileWord
  | eof
  deriving DecidableEq, Repr

namespace Kind

def all : List Kind :=
  [.leftParen, .rightParen, .leftBrace, .rightBrace, .comma, .dot, .minus, .plus, .semicolon,
   .slash, .star, .question, .colon, .bang, .bangEqual, .equal, .equalEqual, .greater,
   .greaterEqual, .less, .lessEqual, .identifier, .string, .number, .andWord, .classWord,
   .elseWord, .falseWord, .funWord, .forWord, .ifWord, .nilWord, .orWord, .printWord,
   .returnWord, .superWord, .thisWord, .trueWord, .varWord, .whileWord, .eof]

def name : Kind → String
  | .leftParen => "LEFT_PAREN"
  | .rightParen => "RIGHT_PAREN"
  | .leftBrace => "LEFT_BRACE"
  | .rightBrace => "RIGHT_BRACE"
  | .comma => "COMMA"
  | .dot => "DOT"
  | .minus => "MINUS"
  | .plus => "PLUS"
  | .semicolon => "SEMICOLON"
  | .slash => "SLASH"
  | .star => "STAR"
  | .question => "QUESTION"
  | .colon => "COLON"
  | .bang => "BANG"
  | .bangEqual => "BANG_EQUAL"
  | .equal => "EQUAL"
  | .equalEqual => "EQUAL_EQUAL"
  | .greater => "GREATER"
  | .greaterEqual => "GREATER_EQUAL"
  | .less => "LESS"
  | .lessEqual => "LESS_EQUAL"
  | .identifier => "IDENTIFIER"
  | .string => "STRING"
  | .number => "NUMBER"
  | .andWord => "AND"
  | .classWord => "CLASS"
  | .elseWord => "ELSE"
  | .falseWord => "FALSE"
  | .funWord => "FUN"
  | .forWord => "FOR"
  | .ifWord => "IF"
  | .nilWord => "NIL"
  | .orWord => "OR"
  | .printWord => "PRINT"
  | .returnWord => "RETURN"
  | .superWord => "SUPER"
  | .thisWord => "THIS"
  | .trueWord => "TRUE"
  | .varWord => "VAR"
  | .whileWord => "WHILE"
  | .eof => "EOF"

def ofName? (name : String) : Option Kind :=
  all.find? (·.name == name)

/-- The text of a kind that is always written the same way. -/
def spelling? : Kind → Option String
  | .leftParen => some "("
  | .rightParen => some ")"
  | .leftBrace => some "\x7b"
  | .rightBrace => some "\x7d"
  | .comma => some ","
  | .dot => some "."
  | .minus => some "-"
  | .plus => some "+"
  | .semicolon => some ";"
  | .slash => some "/"
  | .star => some "*"
  | .question => some "?"
  | .colon => some ":"
  | .bang => some "!"
  | .bangEqual => some "!="
  | .equal => some "="
  | .equalEqual => some "=="
  | .greater => some ">"
  | .greaterEqual => some ">="
  | .less => some "<"
  | .lessEqual => some "<="
  | .andWord => some "and"
  | .classWord => some "class"
  | .elseWord => some "else"
  | .falseWord => some "false"
  | .funWord => some "fun"
  | .forWord => some "for"
  | .ifWord => some "if"
  | .nilWord => some "nil"
  | .orWord => some "or"
  | .printWord => some "print"
  | .returnWord => some "return"
  | .superWord => some "super"
  | .thisWord => some "this"
  | .trueWord => some "true"
  | .varWord => some "var"
  | .whileWord => some "while"
  | .identifier | .string | .number | .eof => none

def spelling (k : Kind) : List Char :=
  (k.spelling?.getD "").toList

def keywords : List Kind :=
  [.andWord, .classWord, .elseWord, .falseWord, .funWord, .forWord, .ifWord, .nilWord, .orWord,
   .printWord, .returnWord, .superWord, .thisWord, .trueWord, .varWord, .whileWord]

/-- The kind of a word: the keyword with this spelling, or an identifier. -/
def ofWord (word : List Char) : Kind :=
  (keywords.find? fun k => k.spelling = word).getD .identifier

def beginsStatement : Kind → Bool
  | .classWord | .funWord | .varWord | .forWord | .ifWord | .whileWord | .printWord
  | .returnWord => true
  | _ => false

end Kind

structure Token where
  kind : Kind
  /-- The text that the token was read from. -/
  lexeme : String
  /-- The value of a number or a string, nil for the rest. -/
  literal : Value
  /-- The line on which the token ends, counted from one. -/
  line : Int
  deriving DecidableEq, Repr

namespace Token

def endOfInput (line : Int) : Token :=
  ⟨.eof, "", .nil, line⟩

def operator (kind : Kind) (line : Int) : Token :=
  ⟨kind, String.ofList kind.spelling, .nil, line⟩

/-- The token in a listing: kind, lexeme and value, without blanks at the end. -/
def listing (t : Token) : String :=
  let text := t.kind.name ++ " " ++ t.lexeme ++ " " ++ t.literal.listingText
  String.ofList (Text.dropEndWhile Text.isBlank text.toList)

def outline (t : Token) : String :=
  "Token(" ++ t.kind.name ++ ", " ++ Text.quoted t.lexeme ++ ", line=" ++ toString t.line ++ ")"

/-- Whether two tokens of trees are the same; their values are compared as
literals. -/
def same (t u : Token) : Bool :=
  t.kind == u.kind && t.lexeme == u.lexeme && t.literal.sameLiteral u.literal && t.line == u.line

end Token

end LoxCalc
