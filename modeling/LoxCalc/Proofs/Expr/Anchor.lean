import LoxCalc.Proofs.Expr.Respelling
import LoxCalc.Proofs.Script.Placement

/-!
# Where a tree that is too deep is reported

An *outermost* operator of a tree lies inside no other one.  A tree may have several of them: a
conditional has no operator of its own, so each of its three operands may hold one.  The anchor of
a tree is looked for on one way only, from every node to its first operand.

**If an outermost operator lies on this way then it is the anchor** (`anchor_cases`), and if none
lies there then the tree is reported at an end of input on line 1.  The first case is that of every
tree in which no conditional stands above all operators.  The second one is that of a tree without
operators, but not of such a tree alone: the condition of a conditional may be a literal while the
depth, and every operator, lies in a branch.

* `OutermostAt`: an outermost operator and its position.
* `evaluate_tooDeep`: the token of the error of a tree that is too deep.
* `evaluate_deepBranch`: a tree with an outermost operator that is reported at none.
-/

namespace LoxCalc.Expr

open Position

/-- Whether the node at a position has the operator `op` and no node above it has one. -/
inductive OutermostAt : Expr → Position → Token → Prop
  | here {e : Expr} {op : Token} (h : e.operator? = some op) : OutermostAt e [] op
  | under {e f : Expr} {i : Nat} {p : Position} {op : Token} (hnone : e.operator? = none)
      (hf : e.operand? i = some f) (h : OutermostAt f p op) : OutermostAt e (i :: p) op

variable {e f n : Expr} {p : Position} {op : Token}

namespace OutermostAt

theorem exists_at? (h : OutermostAt e p op) : ∃ n, e.at? p = some n ∧ n.operator? = some op := by
  induction h with
  | here h => exact ⟨_, rfl, h⟩
  | under _ hf _ ih =>
    obtain ⟨n, hn, hop⟩ := ih
    exact ⟨n, by rw [at?_cons hf, hn], hop⟩

/-- A node with an operator is the only one that has an outermost operator. -/
theorem eq_of_operator {op' : Token} (h : OutermostAt e p op) (hop : e.operator? = some op') :
    p = [] ∧ op = op' := by
  cases h with
  | here h => exact ⟨rfl, Option.some.inj (h.symm.trans hop)⟩
  | under hnone _ _ =>
    rw [hnone] at hop
    cases hop

theorem not_of_leaf (hnone : e.operator? = none) (hleaf : ∀ i, e.operand? i = none) :
    ¬ OutermostAt e p op := by
  intro h
  cases h with
  | here h => rw [hnone] at h; cases h
  | under _ hf _ => rw [hleaf] at hf; cases hf

theorem exists_under (h : OutermostAt e p op) (hnone : e.operator? = none) :
    ∃ i q f, p = i :: q ∧ e.operand? i = some f ∧ OutermostAt f q op := by
  cases h with
  | here h => rw [hnone] at h; cases h
  | under _ hf h => exact ⟨_, _, _, rfl, hf, h⟩

end OutermostAt

/-! ### The anchor -/

/-- Whether the first operands of a tree, its own first operand and so on, lead to an outermost
operator. -/
def FirstOutermost (e : Expr) (op : Token) : Prop :=
  ∃ k, OutermostAt e (List.replicate k 0) op

theorem FirstOutermost.operand_iff (hnone : e.operator? = none) (hf : e.operand? 0 = some f) :
    FirstOutermost e op ↔ FirstOutermost f op := by
  constructor
  · rintro ⟨k, h⟩
    obtain ⟨i, q, f', hk, hf', h⟩ := h.exists_under hnone
    cases k with
    | zero => cases hk
    | succ k =>
      obtain ⟨rfl, rfl⟩ := List.cons.inj hk
      obtain rfl := Option.some.inj (hf.symm.trans hf')
      exact ⟨k, h⟩
  · rintro ⟨k, h⟩
    exact ⟨k + 1, .under hnone hf h⟩

/-- **The anchor of a tree** is the outermost operator among its first operands, or an end of input
if there is none. -/
theorem anchor_cases (e : Expr) :
    FirstOutermost e e.anchor ∨
      (e.anchor = .endOfInput 1 ∧ ∀ op, ¬ FirstOutermost e op) := by
  induction e with
  | literal _ | absent | bare _ =>
    exact Or.inr ⟨rfl, fun op ⟨k, h⟩ => OutermostAt.not_of_leaf rfl (fun _ => rfl) h⟩
  | unary op e _ => exact Or.inl ⟨0, .here rfl⟩
  | binary l op r _ _ => exact Or.inl ⟨0, .here rfl⟩
  | grouping e ih =>
    have hiff : ∀ {op}, FirstOutermost (.grouping e) op ↔ FirstOutermost e op :=
      FirstOutermost.operand_iff rfl rfl
    exact ih.imp hiff.mpr fun ⟨hanchor, hnone⟩ => ⟨hanchor, fun op h => hnone op (hiff.mp h)⟩
  | conditional c t e ihc _ _ =>
    have hiff : ∀ {op}, FirstOutermost (.conditional c t e) op ↔ FirstOutermost c op :=
      FirstOutermost.operand_iff rfl rfl
    exact ihc.imp hiff.mpr fun ⟨hanchor, hnone⟩ => ⟨hanchor, fun op h => hnone op (hiff.mp h)⟩

theorem anchor_eq_of_evaluate {a : Allowance Layer} {places : Int} {token : Token}
    (h : e.evaluate a places = .error (.runtime ⟨token, .tooDeep⟩)) : token = e.anchor := by
  rw [evaluate] at h
  cases heval : e.eval places a with
  | ok v => simp [heval] at h
  | error halt =>
    cases halt with
    | exhausted =>
      simp only [heval, Except.error.injEq, Trouble.runtime.injEq, RuntimeError.mk.injEq] at h
      exact h.1.symm
    | raised t =>
      simp only [heval, Except.error.injEq] at h
      exact absurd (by rw [heval, h]) (eval_ne_tooDeep e places a token)

/-- **The token of the error of a tree that is too deep.**  It is the outermost operator to which
the first operands of the tree lead, or an end of input on line 1 if they lead to none, as they do
in a tree without operators.  In the tree of a source it is therefore an outermost operator exactly
if the first operands lead to one, and then the error is reported on a line of the source on which
this operator stands. -/
theorem evaluate_tooDeep {a : Allowance Layer} {places : Int} {token : Token}
    (h : e.evaluate a places = .error (.runtime ⟨token, .tooDeep⟩)) :
    (FirstOutermost e token ∨ (token = .endOfInput 1 ∧ ∀ op, ¬ FirstOutermost e op)) ∧
    ((∀ p n, e.at? p = some n → n.operator? = none) → token = .endOfInput 1) ∧
    ∀ (limits : Limits) (source : Source), (Scan.ofSource source).tree? limits = some e →
      ((∃ p, OutermostAt e p token) ↔ ∃ op, FirstOutermost e op) ∧
      ∀ p, OutermostAt e p token → ∃ n before, e.at? p = some n ∧
        TokenAt source.characters (e.operatorIndex p n) token before ∧
        token.line = lineAfter before := by
  obtain rfl := anchor_eq_of_evaluate h
  refine ⟨e.anchor_cases, fun hnone => ?_, fun limits source htree => ⟨⟨?_, ?_⟩, ?_⟩⟩
  · refine (e.anchor_cases.resolve_left ?_).1
    rintro ⟨k, houter⟩
    obtain ⟨n, hn, hop⟩ := houter.exists_at?
    rw [hnone _ n hn] at hop
    cases hop
  · rintro ⟨p, houter⟩
    rcases e.anchor_cases with hfirst | ⟨heof, -⟩
    · exact ⟨_, hfirst⟩
    · -- no operator of a source is an end of input
      obtain ⟨n, hn, hop⟩ := houter.exists_at?
      have hsymbol := ((Scan.reading_of_tree? htree).2.of_at? hn).isSymbol hop
      rw [heof] at hsymbol
      cases hsymbol
  · rintro ⟨op, hfirst⟩
    rcases e.anchor_cases with ⟨k, houter⟩ | ⟨-, hnone⟩
    · exact ⟨_, houter⟩
    · exact absurd hfirst (hnone op)
  · intro p houter
    obtain ⟨n, hn, hop⟩ := houter.exists_at?
    obtain ⟨before, htokenAt, hline⟩ := Scan.exists_operatorAt htree hn hop
    exact ⟨n, before, hn, htokenAt, hline⟩

/-! ### Long sums -/

def sumOfOnes (line : Int) : Nat → Expr
  | 0 => .literal (.number .one)
  | n + 1 => .binary (sumOfOnes line n) (.operator .plus line) (.literal (.number .one))

/-- **A long sum is deep**: every operator takes the frames of one operation. -/
theorem eval_sumOfOnes_exhausted {cost : Layer → Nat} {places : Int} {line : Int} {n : Nat} :
    ∀ {frames : Nat}, frames < n * cost .binary →
      (sumOfOnes line n).eval places ⟨some frames, cost⟩ = .error .exhausted := by
  induction n with
  | zero => exact fun h => absurd h (by rw [Nat.zero_mul]; exact Nat.not_lt_zero _)
  | succ n ih =>
    intro frames h
    rw [Nat.succ_mul] at h
    rw [sumOfOnes, eval, Bounded.descend_bind]
    by_cases hframes : cost .binary ≤ frames
    · rw [if_pos hframes, ih (by omega)]
      rfl
    · rw [if_neg hframes]

theorem evaluate_tooDeep_sumOfOnes :
    (sumOfOnes 2 2000).evaluate Limits.standard.evaluating 6 =
        .error (.runtime ⟨.operator .plus 2, .tooDeep⟩) ∧
      (FirstOutermost (sumOfOnes 2 2000) (.operator .plus 2) ∨
        (Token.operator .plus 2 = .endOfInput 1 ∧
          ∀ op, ¬ FirstOutermost (sumOfOnes 2 2000) op)) := by
  have heval : (sumOfOnes 2 2000).eval 6 Limits.standard.evaluating = .error .exhausted :=
    eval_sumOfOnes_exhausted (by decide)
  have hevaluate : (sumOfOnes 2 2000).evaluate Limits.standard.evaluating 6 =
      .error (.runtime ⟨.operator .plus 2, .tooDeep⟩) := by
    rw [evaluate, heval]
    rfl
  exact ⟨hevaluate, (evaluate_tooDeep hevaluate).1⟩

/-- The tree of `true ? 1+1+…+1 : nil` with a sum of `n` operators on line 2. -/
def sumInBranch (n : Nat) : Expr :=
  .conditional (.literal (.bool true)) (sumOfOnes 2 n) (.literal .nil)

theorem evaluate_sumInBranch {n : Nat} (h : 988 < n * 2) (places : Int) :
    (sumInBranch n).evaluate Limits.standard.evaluating places =
      .error (.runtime ⟨.endOfInput 1, .tooDeep⟩) := by
  have hbranch : (sumOfOnes 2 n).eval places ⟨some 988, Limits.layerCost⟩ = .error .exhausted :=
    eval_sumOfOnes_exhausted h
  have heval : (sumInBranch n).eval places Limits.standard.evaluating = .error .exhausted := by
    rw [sumInBranch, eval]
    exact hbranch
  rw [evaluate, heval]
  rfl

theorem outermostAt_sumInBranch {n : Nat} {p : Position} {op : Token} :
    OutermostAt (sumInBranch (n + 1)) p op ↔ p = [1] ∧ op = .operator .plus 2 := by
  constructor
  · intro h
    obtain ⟨i, q, f, rfl, hf, h⟩ := h.exists_under rfl
    match i with
    | 0 =>
      obtain rfl := Option.some.inj hf
      exact absurd h (OutermostAt.not_of_leaf rfl fun _ => rfl)
    | 1 =>
      obtain rfl := Option.some.inj hf
      obtain ⟨rfl, rfl⟩ := h.eq_of_operator rfl
      exact ⟨rfl, rfl⟩
    | 2 =>
      obtain rfl := Option.some.inj hf
      exact absurd h (OutermostAt.not_of_leaf rfl fun _ => rfl)
    | i + 3 => cases hf
  · rintro ⟨rfl, rfl⟩
    exact .under rfl rfl (.here rfl)

/-- **A tree with an outermost operator that is reported at none.**  The sum in the branch is too
deep and its last operator is outermost, but the condition has no operator. -/
theorem evaluate_deepBranch :
    (sumInBranch 2000).evaluate Limits.standard.evaluating 6 =
        .error (.runtime ⟨.endOfInput 1, .tooDeep⟩) ∧
      OutermostAt (sumInBranch 2000) [1] (.operator .plus 2) ∧
      ¬ ∃ p, OutermostAt (sumInBranch 2000) p (.endOfInput 1) := by
  refine ⟨evaluate_sumInBranch (by decide) 6, outermostAt_sumInBranch.mpr ⟨rfl, rfl⟩, ?_⟩
  rintro ⟨p, h⟩
  exact absurd (outermostAt_sumInBranch.mp h).2 (by decide)

end LoxCalc.Expr
