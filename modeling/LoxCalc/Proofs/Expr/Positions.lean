import LoxCalc.Proofs.Grammar.Reading

/-!
# Positions in a tree

A position is the way from the root of a tree to one of its subtrees: the numbers of the
operands that it goes through, each node's operands counted from the left.  `at?` looks a
position up and `replace` puts another tree there.

Operands are read in the order in which they are counted, so positions are ordered: `Later`
says that one of two subtrees stands wholly to the right of the other.  And **what stands
before a subtree is fixed by its position** (`marks_eq_of_at?`), which tells at which token of
the source the subtree begins and which one its operator is (`marks_operatorIndex`).
-/

namespace LoxCalc.Expr

/-- The way from the root of a tree to a subtree. -/
abbrev Position : Type := List Nat

def operand? : Expr → Nat → Option Expr
  | .grouping e, 0 => some e
  | .unary _ e, 0 => some e
  | .binary l _ _, 0 => some l
  | .binary _ _ r, 1 => some r
  | .conditional c _ _, 0 => some c
  | .conditional _ t _, 1 => some t
  | .conditional _ _ e, 2 => some e
  | _, _ => none

def setOperand : Expr → Nat → Expr → Expr
  | .grouping _, 0, u => .grouping u
  | .unary op _, 0, u => .unary op u
  | .binary _ op r, 0, u => .binary u op r
  | .binary l op _, 1, u => .binary l op u
  | .conditional _ t e, 0, u => .conditional u t e
  | .conditional c _ e, 1, u => .conditional c u e
  | .conditional c t _, 2, u => .conditional c t u
  | e, _, _ => e

def at? : Expr → Position → Option Expr
  | e, [] => some e
  | e, i :: p =>
    match e.operand? i with
    | some f => f.at? p
    | none => none

/-- The tree with `u` at a position; without such a position it stays as it is. -/
def replace : Expr → Position → Expr → Expr
  | _, [], u => u
  | e, i :: p, u =>
    match e.operand? i with
    | some f => e.setOperand i (f.replace p u)
    | none => e

theorem at?_cons {e f : Expr} {i : Nat} (h : e.operand? i = some f) (p : Position) :
    e.at? (i :: p) = f.at? p := by
  rw [at?, h]

theorem exists_operand_of_at? {e n : Expr} {i : Nat} {p : Position}
    (h : e.at? (i :: p) = some n) : ∃ f, e.operand? i = some f ∧ f.at? p = some n := by
  rw [at?] at h
  cases hf : e.operand? i with
  | none => simp [hf] at h
  | some f => exact ⟨f, rfl, by simpa [hf] using h⟩

theorem at?_append {q : Position} : ∀ {p : Position} {e n : Expr}, e.at? p = some n →
    e.at? (p ++ q) = n.at? q := by
  intro p
  induction p with
  | nil =>
    intro e n h
    obtain rfl : e = n := Option.some.inj h
    rfl
  | cons i p ih =>
    intro e n h
    obtain ⟨f, hf, hn⟩ := exists_operand_of_at? h
    rw [List.cons_append, at?_cons hf, ih hn]

/-! ### Order -/

/-- Whether `q` stands wholly to the right of `p`: where the ways part, `q` goes to the later
operand. -/
def Position.Later (p q : Position) : Prop :=
  ∃ (common : Position) (i j : Nat) (p' q' : Position),
    p = common ++ i :: p' ∧ q = common ++ j :: q' ∧ i < j

theorem Position.Later.cons {p q : Position} (h : Later p q) (i : Nat) :
    Later (i :: p) (i :: q) := by
  obtain ⟨common, j, k, p', q', rfl, rfl, hjk⟩ := h
  exact ⟨i :: common, j, k, p', q', rfl, rfl, hjk⟩

theorem Position.later_of_lt {i j : Nat} (h : i < j) (p q : Position) :
    Later (i :: p) (j :: q) :=
  ⟨[], i, j, p, q, rfl, rfl, h⟩

/-- **Two ways compare**: one leads on from the other, or one of them is the later one. -/
theorem Position.compare (p : Position) : ∀ q : Position,
    p <+: q ∨ q <+: p ∨ Later p q ∨ Later q p := by
  induction p with
  | nil => exact fun q => Or.inl List.nil_prefix
  | cons i p ih =>
    intro q
    cases q with
    | nil => exact Or.inr (Or.inl List.nil_prefix)
    | cons j q =>
      rcases Nat.lt_trichotomy i j with hlt | rfl | hgt
      · exact Or.inr (Or.inr (Or.inl (later_of_lt hlt p q)))
      · rcases ih q with h | h | h | h
        · exact Or.inl (List.prefix_cons_iff.mpr (Or.inr ⟨p, rfl, h⟩))
        · exact Or.inr (Or.inl (List.prefix_cons_iff.mpr (Or.inr ⟨q, rfl, h⟩)))
        · exact Or.inr (Or.inr (Or.inl (h.cons i)))
        · exact Or.inr (Or.inr (Or.inr (h.cons i)))
      · exact Or.inr (Or.inr (Or.inr (later_of_lt hgt q p)))

/-! ### What stands before a subtree -/

def marksBeforeOperand : Expr → Nat → List Mark
  | .grouping _, 0 => [.plain .leftParen]
  | .unary op _, 0 => [.operator op]
  | .binary l op _, 1 => l.marks ++ [.operator op]
  | .conditional c _ _, 1 => c.marks ++ [.plain .question]
  | .conditional c t _, 2 => c.marks ++ .plain .question :: (t.marks ++ [.plain .colon])
  | _, _ => []

/-- The marks of a tree that stand before the subtree at a position. -/
def marksBefore : Expr → Position → List Mark
  | _, [] => []
  | e, i :: p =>
    match e.operand? i with
    | some f => e.marksBeforeOperand i ++ f.marksBefore p
    | none => []

theorem marks_eq_of_operand? {e f : Expr} {i : Nat} (h : e.operand? i = some f) :
    ∃ behind, e.marks = e.marksBeforeOperand i ++ f.marks ++ behind := by
  unfold operand? at h
  split at h <;> cases h
  · exact ⟨[.plain .rightParen], rfl⟩
  · exact ⟨[], by simp [marks, marksBeforeOperand]⟩
  · exact ⟨_, rfl⟩
  · exact ⟨[], by simp [marks, marksBeforeOperand]⟩
  · exact ⟨_, rfl⟩
  · rename_i c e
    exact ⟨.plain .colon :: e.marks, by simp [marks, marksBeforeOperand]⟩
  · exact ⟨[], by simp [marks, marksBeforeOperand]⟩

/-- **A subtree is read where its position says.** -/
theorem marks_eq_of_at? {p : Position} : ∀ {e n : Expr}, e.at? p = some n →
    ∃ behind, e.marks = e.marksBefore p ++ n.marks ++ behind := by
  induction p with
  | nil =>
    intro e n h
    obtain rfl : e = n := Option.some.inj h
    exact ⟨[], by simp [marksBefore]⟩
  | cons i p ih =>
    intro e n h
    obtain ⟨f, hf, hn⟩ := exists_operand_of_at? h
    obtain ⟨behind, hbehind⟩ := ih hn
    obtain ⟨rest, hrest⟩ := marks_eq_of_operand? hf
    refine ⟨behind ++ rest, ?_⟩
    rw [hrest, hbehind, marksBefore, hf]
    simp only [List.append_assoc]

/-! ### Operators -/

def operator? : Expr → Option Token
  | .unary op _ => some op
  | .binary _ op _ => some op
  | _ => none

def marksToOperator : Expr → Nat
  | .binary l _ _ => l.marks.length
  | _ => 0

/-- Which of the marks of a tree is the operator of the node `n` at a position. -/
def operatorIndex (e : Expr) (p : Position) (n : Expr) : Nat :=
  (e.marksBefore p).length + n.marksToOperator

/-- **An operator is read where the position of its node says.** -/
theorem marks_operatorIndex {e n : Expr} {p : Position} {op : Token} (h : e.at? p = some n)
    (hop : n.operator? = some op) : e.marks[e.operatorIndex p n]? = some (.operator op) := by
  obtain ⟨behind, hmarks⟩ := marks_eq_of_at? h
  have hnode : n.marks[n.marksToOperator]? = some (.operator op) := by
    cases n with
    | unary op' e => cases hop; rfl
    | binary l op' r =>
      cases hop
      rw [marks, marksToOperator, List.getElem?_append_right (Nat.le_refl _), Nat.sub_self]
      rfl
    | _ => cases hop
  have hlt : n.marksToOperator < n.marks.length := (List.getElem?_eq_some_iff.mp hnode).1
  rw [hmarks, operatorIndex, List.append_assoc, List.getElem?_append_right (Nat.le_add_right _ _),
    Nat.add_sub_cancel_left, List.getElem?_append_left hlt, hnode]

theorem Shaped.of_operand? {e f : Expr} {i : Nat} (h : e.Shaped) (hf : e.operand? i = some f) :
    f.Shaped := by
  unfold operand? at hf
  split at hf <;> cases hf
  · exact h
  · exact h.2.2
  · exact h.1
  · exact h.2.1
  · exact h.1
  · exact h.2.2.1
  · exact h.2.2.2

theorem Shaped.of_at? {p : Position} : ∀ {e n : Expr}, e.Shaped → e.at? p = some n →
    n.Shaped := by
  induction p with
  | nil =>
    intro e n h hn
    obtain rfl : e = n := Option.some.inj hn
    exact h
  | cons i p ih =>
    intro e n h hn
    obtain ⟨f, hf, hn⟩ := exists_operand_of_at? hn
    exact ih (h.of_operand? hf) hn

end LoxCalc.Expr
