import LoxCalc.Parser.Phase
import LoxCalc.Proofs.Token.Lexeme

/-!
# Trees and the tokens they are read from

A tree keeps of a token what it needs: of a literal the kind and the value, of a
bracket or of the two signs of a conditional only that it was there, and of an
operator the whole token with its line.  A `Mark` is what is kept, and
`Expr.marks` reads a tree in order and gives its marks.  A tree is *a reading of*
tokens if its marks are theirs.

Many trees are readings of the same tokens; `Expr.Shaped` says which of them the
levels of the grammar allow.  **A comma is the one place where levels are not
enough**: the branch after a colon is a whole expression, so in `c ? t : e, f`
the comma belongs to it, and no tree that ends in such a branch is the left
operand of a comma.

* `endsInBranch_of_level`: a shaped tree of the level of a condition or tighter
  does not end in a branch.
* `shaped_binary_iff`: the shape of a binary operation, with one rule for all
  levels.
* `marks_operator_after_branch`: the two trees between which the tokens do not
  decide.
-/

namespace LoxCalc

/-! ### Marks -/

/-- What a tree keeps of a token. -/
inductive Mark where
  | plain (kind : Kind)
  | literal (kind : Option Kind) (value : Value)
  | operator (token : Token)
  deriving DecidableEq, Repr

def Value.tokenKind? : Value → Option Kind
  | .nil => some .nilWord
  | .bool true => some .trueWord
  | .bool false => some .falseWord
  | .number _ => some .number
  | .string _ => some .string
  | .foreign _ => none

def Token.mark (t : Token) : Mark :=
  match t.kind with
  | .number | .string => .literal (some t.kind) t.literal
  | .trueWord => .literal (some .trueWord) (.bool true)
  | .falseWord => .literal (some .falseWord) (.bool false)
  | .nilWord => .literal (some .nilWord) .nil
  | .leftParen | .rightParen | .question | .colon => .plain t.kind
  | _ => .operator t

/-- A number token carries a number and a string token a string. -/
def Token.LiteralTyped (t : Token) : Prop :=
  (t.kind = .number → t.literal.isNumber = true) ∧
    (t.kind = .string → t.literal.isString = true)

instance (t : Token) : Decidable t.LiteralTyped :=
  inferInstanceAs (Decidable (_ ∧ _))

namespace Expr

/-- The marks of a tree, in the order in which it is read. -/
def marks : Expr → List Mark
  | .literal v => [.literal v.tokenKind? v]
  | .grouping e => .plain .leftParen :: (e.marks ++ [.plain .rightParen])
  | .unary op e => .operator op :: e.marks
  | .binary l op r => l.marks ++ .operator op :: r.marks
  | .conditional c t e => c.marks ++ .plain .question :: (t.marks ++ .plain .colon :: e.marks)
  | .absent => []
  | .bare t => [.operator t]

/-! ### Readings fall apart as trees do -/

section Split

variable {α : Type} {mark : α → Mark} {xs : List α}

theorem split_literal {v : Value} (h : xs.map mark = (literal v).marks) :
    ∃ x, xs = [x] ∧ mark x = .literal v.tokenKind? v := by
  obtain ⟨x, rest, rfl, hx, hrest⟩ := List.map_eq_cons_iff.mp h
  obtain rfl := List.map_eq_nil_iff.mp hrest
  exact ⟨x, rfl, hx⟩

theorem split_grouping {e : Expr} (h : xs.map mark = (grouping e).marks) :
    ∃ l inner r, xs = l :: (inner ++ [r]) ∧ mark l = .plain .leftParen ∧
      inner.map mark = e.marks ∧ mark r = .plain .rightParen := by
  obtain ⟨l, more, rfl, hl, hmore⟩ := List.map_eq_cons_iff.mp h
  obtain ⟨inner, ends, rfl, hinner, hends⟩ := List.map_eq_append_iff.mp hmore
  obtain ⟨r, rest, rfl, hr, hrest⟩ := List.map_eq_cons_iff.mp hends
  obtain rfl := List.map_eq_nil_iff.mp hrest
  exact ⟨l, inner, r, rfl, hl, hinner, hr⟩

theorem split_unary {op : Token} {e : Expr} (h : xs.map mark = (unary op e).marks) :
    ∃ x rest, xs = x :: rest ∧ mark x = .operator op ∧ rest.map mark = e.marks :=
  List.map_eq_cons_iff.mp h

theorem split_binary {l r : Expr} {op : Token} (h : xs.map mark = (binary l op r).marks) :
    ∃ left x right, xs = left ++ x :: right ∧ left.map mark = l.marks ∧
      mark x = .operator op ∧ right.map mark = r.marks := by
  obtain ⟨left, more, rfl, hleft, hmore⟩ := List.map_eq_append_iff.mp h
  obtain ⟨x, right, rfl, hx, hright⟩ := List.map_eq_cons_iff.mp hmore
  exact ⟨left, x, right, rfl, hleft, hx, hright⟩

theorem split_conditional {c t e : Expr} (h : xs.map mark = (conditional c t e).marks) :
    ∃ condition q branch k last, xs = condition ++ q :: (branch ++ k :: last) ∧
      condition.map mark = c.marks ∧ mark q = .plain .question ∧ branch.map mark = t.marks ∧
      mark k = .plain .colon ∧ last.map mark = e.marks := by
  obtain ⟨condition, more, rfl, hcondition, hmore⟩ := List.map_eq_append_iff.mp h
  obtain ⟨q, more, rfl, hq, hmore⟩ := List.map_eq_cons_iff.mp hmore
  obtain ⟨branch, more, rfl, hbranch, hmore⟩ := List.map_eq_append_iff.mp hmore
  obtain ⟨k, last, rfl, hk, hlast⟩ := List.map_eq_cons_iff.mp hmore
  exact ⟨condition, q, branch, k, last, rfl, hcondition, hq, hbranch, hk, hlast⟩

end Split

/-! ### Levels -/

/-- The level of literals, groups and prefix operations, tighter than every
binary operator. -/
def operandLevel : Nat := 5

/-- The level of a tree: that of its operator, the loosest for a conditional. -/
def level : Expr → Nat
  | .binary _ op _ => op.kind.level?.getD 0
  | .conditional .. => 0
  | _ => operandLevel

def isConditional : Expr → Bool
  | .conditional .. => true
  | _ => false

/-- Whether a tree ends in the branch after a colon, outside any group. -/
def endsInBranch : Expr → Bool
  | .conditional .. => true
  | .binary _ _ r => r.endsInBranch
  | .unary _ e => e.endsInBranch
  | _ => false

/-- Whether the levels of the grammar allow the tree. -/
def Shaped : Expr → Prop
  | .literal _ => True
  | .grouping e => e.Shaped
  | .unary op e => (op.kind = .bang ∨ op.kind = .minus) ∧ operandLevel ≤ e.level ∧ e.Shaped
  | .binary l op r =>
    l.Shaped ∧ r.Shaped ∧
      match op.kind.level? with
      | some 0 =>
        l.endsInBranch = false ∧ (r.isConditional = true ∨ conditionLevel ≤ r.level)
      | some level => level ≤ l.level ∧ level < r.level
      | none => False
  | .conditional c t e => c.Shaped ∧ conditionLevel ≤ c.level ∧ t.Shaped ∧ e.Shaped
  | .absent | .bare _ => False

/-! ### Operands of a binary operator -/

def LeftOf (n : Nat) (l : Expr) : Prop :=
  n ≤ l.level ∧ l.endsInBranch = false

def RightOf (n : Nat) (r : Expr) : Prop :=
  n < r.level ∨ (n = 0 ∧ r.isConditional = true)

theorem level_lt_operandLevel {k : Kind} {n : Nat} (h : k.level? = some n) : n < operandLevel := by
  cases k <;> simp [Kind.level?] at h <;> subst h <;> decide

theorem isSymbol_of_level? {k : Kind} {n : Nat} (h : k.level? = some n) : k.isSymbol = true := by
  cases k <;> first | rfl | cases h

theorem level_le_operandLevel (e : Expr) : e.level ≤ operandLevel := by
  cases e with
  | binary l op r =>
    rw [level]
    cases hop : op.kind.level? with
    | none => exact Nat.zero_le _
    | some n => exact Nat.le_of_lt (level_lt_operandLevel hop)
  | conditional c t e => exact Nat.zero_le _
  | literal _ | grouping _ | unary _ _ | absent | bare _ => exact Nat.le_refl _

theorem level_binary {op : Token} {n : Nat} (h : op.kind.level? = some n) (l r : Expr) :
    (binary l op r).level = n := by
  rw [level, h, Option.getD_some]

theorem rightOf_of_operandLevel {n : Nat} {r : Expr} {op : Token} (hop : op.kind.level? = some n)
    (h : operandLevel ≤ r.level) : RightOf n r :=
  Or.inl (Nat.lt_of_lt_of_le (level_lt_operandLevel hop) h)

/-- **A tight tree does not end in a branch.**  Only a comma has such a tree for
its right operand. -/
theorem endsInBranch_of_level {e : Expr} (h : e.Shaped) (hl : conditionLevel ≤ e.level) :
    e.endsInBranch = false := by
  induction e with
  | literal _ | grouping _ _ | absent | bare _ => rfl
  | unary op e ih =>
    rw [Shaped] at h
    exact ih h.2.2 (Nat.le_trans (by decide) h.2.1)
  | binary l op r _ ihr =>
    rw [Shaped] at h
    obtain ⟨_, hr, hop⟩ := h
    rw [level] at hl
    rw [endsInBranch]
    split at hop
    · rename_i h0
      rw [h0, Option.getD_some] at hl
      exact absurd hl (by decide)
    · rename_i n _ hn
      rw [hn, Option.getD_some] at hl
      exact ihr hr (Nat.le_of_lt (Nat.lt_of_le_of_lt hl hop.2))
    · exact hop.elim
  | conditional c t e => exact absurd hl (by simp [level, conditionLevel])

/-- **The shape of a binary operation**, with one rule for all levels. -/
theorem shaped_binary_iff {l r : Expr} {op : Token} :
    (binary l op r).Shaped ↔
      ∃ n, op.kind.level? = some n ∧ l.Shaped ∧ r.Shaped ∧ LeftOf n l ∧ RightOf n r := by
  rw [Shaped]
  cases hop : op.kind.level? with
  | none => simp
  | some n =>
    cases n with
    | zero =>
      simp only [Option.some.injEq, LeftOf, RightOf, conditionLevel, true_and, Nat.zero_le,
        exists_eq_left', Nat.lt_iff_add_one_le, Nat.zero_add]
      grind
    | succ n =>
      simp only [Option.some.injEq, exists_eq_left', LeftOf, RightOf, Nat.succ_ne_zero, false_and,
        or_false]
      constructor
      · rintro ⟨hl, hr, h1, h2⟩
        exact ⟨hl, hr, ⟨h1, endsInBranch_of_level hl (Nat.le_trans (Nat.le_add_left 1 n) h1)⟩, h2⟩
      · rintro ⟨hl, hr, ⟨h1, -⟩, h2⟩
        exact ⟨hl, hr, h1, h2⟩

/-- **The ambiguity of a branch.**  Two trees are readings of the same tokens, and
only the one that keeps the operator inside the branch can be shaped. -/
theorem marks_operator_after_branch (c t e f : Expr) (op : Token) :
    (binary (conditional c t e) op f).marks = (conditional c t (binary e op f)).marks ∧
      ¬ (binary (conditional c t e) op f).Shaped := by
  constructor
  · simp only [marks, List.append_assoc, List.cons_append]
  · rw [shaped_binary_iff]
    rintro ⟨n, -, -, -, hleft, -⟩
    exact absurd hleft.2 (by simp [endsInBranch])

end Expr

end LoxCalc
