import LoxCalc.Parser.Phase

/-!
# Sentences

The grammar as it is written down in `Parser/Phase.lean`, with its nine
nonterminals, over kinds of tokens.  It is ambiguous, since a comma after an else
branch may be read on either side of the branch; for the question which texts are
sentences this makes no difference.

An `Outline` is all that matters about the beginning of a sentence: whether an
operand is expected next, and which parentheses and conditionals are still open.
**`Derives.run`**: a word derived from any nonterminal is an operand, and leaves
what was open before it as it was.
-/

namespace LoxCalc

/-! ### The grammar -/

inductive Nonterminal where
  | expression | comma | ternary | equality | comparison | addition | multiplication | unary
  | primary
  deriving DecidableEq, Repr

/-- The rules of the form `name := operand (operator operand)*`: the operators and
the operand of a name. -/
def Nonterminal.chain? : Nonterminal → Option (List Kind × Nonterminal)
  | .comma => some ([.comma], .ternary)
  | .equality => some ([.equalEqual, .bangEqual], .comparison)
  | .comparison => some ([.greater, .greaterEqual, .less, .lessEqual], .addition)
  | .addition => some ([.minus, .plus], .multiplication)
  | .multiplication => some ([.star, .slash], .unary)
  | _ => none

def Kind.isLiteral : Kind → Bool
  | .number | .string | .trueWord | .falseWord | .nilWord => true
  | _ => false

/-- **The grammar.**  `Derives n w` says that the kinds `w` can be derived from `n`. -/
inductive Derives : Nonterminal → List Kind → Prop where
  | expression {w : List Kind} : Derives .comma w → Derives .expression w
  | operand {n m : Nonterminal} {ops : List Kind} {w : List Kind} :
      n.chain? = some (ops, m) → Derives m w → Derives n w
  | chain {n m : Nonterminal} {ops : List Kind} {op : Kind} {w v : List Kind} :
      n.chain? = some (ops, m) → op ∈ ops → Derives n w → Derives m v →
        Derives n (w ++ op :: v)
  | condition {w : List Kind} : Derives .equality w → Derives .ternary w
  | conditional {c t e : List Kind} :
      Derives .equality c → Derives .expression t → Derives .expression e →
        Derives .ternary (c ++ .question :: (t ++ .colon :: e))
  | sign {op : Kind} {w : List Kind} :
      op = .bang ∨ op = .minus → Derives .unary w → Derives .unary (op :: w)
  | primary {w : List Kind} : Derives .primary w → Derives .unary w
  | literal {k : Kind} : k.isLiteral = true → Derives .primary [k]
  | group {w : List Kind} :
      Derives .expression w → Derives .primary (.leftParen :: (w ++ [.rightParen]))

/-- Kinds of tokens that make up one expression. -/
def Sentence (w : List Kind) : Prop := Derives .expression w

/-- Kinds of tokens that some sentence begins with. -/
def Viable (w : List Kind) : Prop := ∃ v, Sentence (w ++ v)

/-! ### Outlines -/

inductive Bracket where
  /-- A parenthesis without its partner. -/
  | paren
  /-- A question mark without its colon. -/
  | question
  deriving DecidableEq, Repr

/-- What the beginning of a sentence leaves open. -/
structure Outline where
  /-- Whether an operand comes next, and not an operator. -/
  expectsOperand : Bool
  /-- What is still open, the innermost first. -/
  pending : List Bracket
  deriving DecidableEq, Repr

namespace Outline

def initial : Outline := ⟨true, []⟩

def complete : Outline := ⟨false, []⟩

/-- The outline after a token, unless no sentence goes on with it. -/
def step? : Outline → Kind → Option Outline
  | ⟨true, w⟩, k =>
    match k with
    | .number | .string | .trueWord | .falseWord | .nilWord => some ⟨false, w⟩
    | .leftParen => some ⟨true, .paren :: w⟩
    | .bang | .minus => some ⟨true, w⟩
    | _ => none
  | ⟨false, w⟩, k =>
    match k, w with
    | .question, w => some ⟨true, .question :: w⟩
    | .rightParen, .paren :: w => some ⟨false, w⟩
    | .colon, .question :: w => some ⟨true, w⟩
    | k, w => if k.level?.isSome then some ⟨true, w⟩ else none

def run? : Outline → List Kind → Option Outline
  | o, [] => some o
  | o, k :: ks => (o.step? k).bind fun o => o.run? ks

theorem run?_append (o : Outline) (xs ys : List Kind) :
    o.run? (xs ++ ys) = (o.run? xs).bind fun o => o.run? ys := by
  induction xs generalizing o with
  | nil => rfl
  | cons k ks ih =>
    rw [List.cons_append, run?, run?]
    cases o.step? k with
    | none => rfl
    | some next => exact ih next

theorem run?_cons {o next : Outline} {k : Kind} (h : o.step? k = some next) (ks : List Kind) :
    o.run? (k :: ks) = next.run? ks := by
  rw [run?, h, Option.bind_some]

theorem run?_append_of {o next : Outline} {xs : List Kind} (h : o.run? xs = some next)
    (ys : List Kind) : o.run? (xs ++ ys) = next.run? ys := by
  rw [run?_append, h, Option.bind_some]

theorem step?_literal {k : Kind} (h : k.isLiteral = true) (w : List Bracket) :
    step? ⟨true, w⟩ k = some ⟨false, w⟩ := by
  cases k <;> first | rfl | exact absurd h (by decide)

theorem step?_operator {n m : Nonterminal} {ops : List Kind} {op : Kind}
    (h : n.chain? = some (ops, m)) (hop : op ∈ ops) (w : List Bracket) :
    step? ⟨false, w⟩ op = some ⟨true, w⟩ := by
  cases n <;> simp [Nonterminal.chain?] at h <;> obtain ⟨rfl, -⟩ := h <;> simp at hop
  case comma => rw [hop]; rfl
  case equality => rcases hop with rfl | rfl <;> rfl
  case comparison => rcases hop with rfl | rfl | rfl | rfl <;> rfl
  case addition => rcases hop with rfl | rfl <;> rfl
  case multiplication => rcases hop with rfl | rfl <;> rfl

end Outline

/-- **A derived word is an operand.**  Whatever was open before it is open after
it, and nothing else. -/
theorem Derives.run {n : Nonterminal} {w : List Kind} (h : Derives n w) : ∀ pending : List Bracket,
    Outline.run? ⟨true, pending⟩ w = some ⟨false, pending⟩ := by
  induction h with
  | expression _ ih => exact ih
  | operand _ _ ih => exact ih
  | condition _ ih => exact ih
  | primary _ ih => exact ih
  | chain hchain hop _ _ ihw ihv =>
    intro pending
    rw [Outline.run?_append_of (ihw pending),
      Outline.run?_cons (Outline.step?_operator hchain hop pending)]
    exact ihv pending
  | conditional _ _ _ ihc iht ihe =>
    intro pending
    have hquestion : Outline.step? ⟨false, pending⟩ .question =
        some ⟨true, .question :: pending⟩ := rfl
    have hcolon : Outline.step? ⟨false, .question :: pending⟩ .colon = some ⟨true, pending⟩ := rfl
    rw [Outline.run?_append_of (ihc pending), Outline.run?_cons hquestion,
      Outline.run?_append_of (iht (.question :: pending)), Outline.run?_cons hcolon]
    exact ihe pending
  | sign hop _ ih =>
    intro pending
    rcases hop with rfl | rfl
    · exact ih pending
    · exact ih pending
  | literal hk =>
    intro pending
    rw [Outline.run?_cons (Outline.step?_literal hk pending), Outline.run?]
  | group _ ih =>
    intro pending
    have hopen : Outline.step? ⟨true, pending⟩ .leftParen =
        some ⟨true, .paren :: pending⟩ := rfl
    rw [Outline.run?_cons hopen, Outline.run?_append_of (ih (.paren :: pending))]
    rfl

/-- **Every outline can be completed**: what is open is closed one after the other,
the colon of a conditional with an operand after it. -/
theorem Outline.exists_complete (o : Outline) : ∃ ks, o.run? ks = some complete := by
  have closing : ∀ w : List Bracket, ∃ ks, run? ⟨false, w⟩ ks = some complete := by
    intro w
    induction w with
    | nil => exact ⟨[], rfl⟩
    | cons b w ih =>
      obtain ⟨ks, hks⟩ := ih
      cases b with
      | paren => exact ⟨.rightParen :: ks, hks⟩
      | question => exact ⟨.colon :: .nilWord :: ks, hks⟩
  obtain ⟨expects, w⟩ := o
  obtain ⟨ks, hks⟩ := closing w
  cases expects with
  | false => exact ⟨ks, hks⟩
  | true => exact ⟨.nilWord :: ks, hks⟩

theorem Sentence.run {w : List Kind} (h : Sentence w) :
    Outline.initial.run? w = some Outline.complete :=
  Derives.run h []

theorem Viable.run {w : List Kind} (h : Viable w) : ∃ o, Outline.initial.run? w = some o := by
  obtain ⟨v, hv⟩ := h
  have hrun := hv.run
  rw [Outline.run?_append] at hrun
  obtain ⟨o, ho, -⟩ := Option.bind_eq_some_iff.mp hrun
  exact ⟨o, ho⟩

end LoxCalc
