import LoxCalc.Proofs.Grammar.Reading
import LoxCalc.Expr.Evaluation
import LoxCalc.Expr.Printer

/-!
# Trees up to lines

The lines of operators have no part in what a tree is or does; they only tell
where an error was.  `unlined` puts everything on line 0, and two trees that are
the same after it differ in nothing but lines.

* `shaped_unlined`: the shape of a tree is that of the tree without lines.
* `exists_of_marks_unlined`: marks that are those of a shaped tree up to lines are
  the marks of a tree that is the same up to lines.
* `eval_unlined`: evaluation does not see the lines either.
* `infixForm_unlined`: nor does the infix form.
-/

namespace LoxCalc

def Token.unlined (t : Token) : Token :=
  { t with line := 0 }

def Mark.unlined : Mark → Mark
  | .operator op => .operator op.unlined
  | m => m

theorem Token.mark_unlined (t : Token) : t.unlined.mark = t.mark.unlined := by
  obtain ⟨kind, lexeme, literal, line⟩ := t
  cases kind <;> rfl

namespace Expr

def unlined : Expr → Expr
  | .literal v => .literal v
  | .grouping e => .grouping e.unlined
  | .unary op e => .unary op.unlined e.unlined
  | .binary l op r => .binary l.unlined op.unlined r.unlined
  | .conditional c t e => .conditional c.unlined t.unlined e.unlined
  | .absent => .absent
  | .bare t => .bare t.unlined

/-! ### Shape -/

theorem level_unlined (e : Expr) : e.unlined.level = e.level := by
  cases e <;> rfl

theorem isConditional_unlined (e : Expr) : e.unlined.isConditional = e.isConditional := by
  cases e <;> rfl

theorem endsInBranch_unlined (e : Expr) : e.unlined.endsInBranch = e.endsInBranch := by
  induction e with
  | unary op e ih => exact ih
  | binary l op r _ ihr => exact ihr
  | literal _ | grouping _ _ | conditional _ _ _ _ _ _ | absent | bare _ => rfl

theorem shaped_unlined (e : Expr) : e.unlined.Shaped ↔ e.Shaped := by
  induction e with
  | grouping e ih => exact ih
  | unary op e ih =>
    rw [unlined, Shaped, Shaped, level_unlined, ih]
    rfl
  | binary l op r ihl ihr =>
    rw [unlined, Shaped, Shaped, ihl, ihr, endsInBranch_unlined, isConditional_unlined,
      level_unlined, level_unlined]
    rfl
  | conditional c t e ihc iht ihe =>
    rw [unlined, Shaped, Shaped, ihc, iht, ihe, level_unlined]
  | literal _ | absent | bare _ => rfl

/-! ### Marks with lines -/

theorem eq_plain_of_unlined {m : Mark} {k : Kind} (h : m.unlined = .plain k) : m = .plain k := by
  cases m with
  | operator op => cases h
  | plain _ | literal _ _ => exact h

theorem eq_literal_of_unlined {m : Mark} {k : Option Kind} {v : Value}
    (h : m.unlined = .literal k v) : m = .literal k v := by
  cases m with
  | operator op => cases h
  | plain _ | literal _ _ => exact h

theorem exists_operator_of_unlined {m : Mark} {op : Token} (h : m.unlined = .operator op) :
    ∃ op', m = .operator op' ∧ op'.unlined = op := by
  cases m with
  | operator op' => exact ⟨op', rfl, Mark.operator.inj h⟩
  | plain _ | literal _ _ => cases h

/-- **Marks that are those of a tree up to lines** are the marks of a tree that is the
same up to lines. -/
theorem exists_of_marks_unlined {e : Expr} (he : e.Shaped) : ∀ {ms : List Mark},
    ms.map Mark.unlined = e.unlined.marks → ∃ f : Expr, f.marks = ms ∧ f.unlined = e.unlined := by
  induction e with
  | literal v =>
    intro ms h
    obtain ⟨m, rfl, hm⟩ := split_literal h
    exact ⟨.literal v, by rw [eq_literal_of_unlined hm, marks], rfl⟩
  | grouping e ih =>
    intro ms h
    obtain ⟨l, inner, r, rfl, hl, hinner, hr⟩ := split_grouping h
    obtain ⟨f, rfl, hf⟩ := ih he hinner
    exact ⟨.grouping f, by rw [eq_plain_of_unlined hl, eq_plain_of_unlined hr, marks],
      by rw [unlined, hf, unlined]⟩
  | unary op e ih =>
    intro ms h
    obtain ⟨m, rest, rfl, hm, hrest⟩ := split_unary h
    obtain ⟨op', rfl, hop⟩ := exists_operator_of_unlined hm
    obtain ⟨f, rfl, hf⟩ := ih he.2.2 hrest
    exact ⟨.unary op' f, rfl, by rw [unlined, hf, hop, unlined]⟩
  | binary l op r ihl ihr =>
    intro ms h
    obtain ⟨left, m, right, rfl, hleft, hm, hright⟩ := split_binary h
    obtain ⟨op', rfl, hop⟩ := exists_operator_of_unlined hm
    obtain ⟨l', rfl, hl⟩ := ihl he.1 hleft
    obtain ⟨r', rfl, hr⟩ := ihr he.2.1 hright
    exact ⟨.binary l' op' r', rfl, by rw [unlined, hl, hop, hr, unlined]⟩
  | conditional c t e ihc iht ihe =>
    intro ms h
    obtain ⟨condition, q, branch, k, last, rfl, hcondition, hq, hbranch, hk, hlast⟩ :=
      split_conditional h
    obtain ⟨c', rfl, hc⟩ := ihc he.1 hcondition
    obtain ⟨t', rfl, ht⟩ := iht he.2.2.1 hbranch
    obtain ⟨e', rfl, hlined⟩ := ihe he.2.2.2 hlast
    exact ⟨.conditional c' t' e', by rw [eq_plain_of_unlined hq, eq_plain_of_unlined hk, marks],
      by rw [unlined, hc, ht, hlined, unlined]⟩
  | absent | bare _ => exact he.elim

end Expr

/-! ### Evaluation -/

def RuntimeError.unlined (e : RuntimeError) : RuntimeError :=
  { e with token := e.token.unlined }

def Trouble.unlined : Trouble → Trouble
  | .runtime e => .runtime e.unlined
  | .fault f => .fault f

def Halt.unlined : Halt Trouble → Halt Trouble
  | .exhausted => .exhausted
  | .raised t => .raised t.unlined

namespace Expr

theorem mapError_bind {ε ε' α β : Type} (g : ε → ε') (x : Except ε α) (f : α → Except ε β) :
    (x >>= f).mapError g = x.mapError g >>= fun a => (f a).mapError g := by
  cases x <;> rfl

theorem mapError_descend (a : Allowance Layer) (step : Layer) :
    (a.descend step : Except (Halt Trouble) _).mapError Halt.unlined = a.descend step := by
  unfold Allowance.descend
  cases a.enter? step <;> rfl

theorem applyUnary_unlined (op : Token) (v : Value) :
    applyUnary op.unlined v = (applyUnary op v).mapError Trouble.unlined := by
  obtain ⟨kind, lexeme, literal, line⟩ := op
  cases kind <;> first | rfl | (cases v <;> rfl)

/-- The operands of the message are looked at without regard to the operator. -/
theorem applyPlus_unlined (places : Int) (op : Token) (v w : Value) :
    applyPlus places op.unlined v w = (applyPlus places op v w).mapError Trouble.unlined := by
  cases v with
  | string s => cases w <;> rfl
  | number x => cases w <;> rfl
  | nil | bool _ =>
    rw [applyPlus.eq_def, applyPlus.eq_def]
    simp only [operandText]
    cases w.display places <;> rfl
  | foreign _ => rfl

theorem applyBinary_unlined (places : Int) (op : Token) (v w : Value) :
    applyBinary places op.unlined v w =
      (applyBinary places op v w).mapError Trouble.unlined := by
  have hkind : op.unlined.kind = op.kind := rfl
  rw [applyBinary, applyBinary, hkind]
  cases harith : arithmetic? op.kind with
  | some compute => cases v <;> cases w <;> rfl
  | none =>
    cases hcomp : comparison? op.kind with
    | some holds => cases v <;> cases w <;> rfl
    | none =>
      simp only
      split
      · exact applyPlus_unlined places op v w
      all_goals rfl

theorem mapError_ofOutcome (x : Outcome) :
    (ofOutcome x).mapError Halt.unlined = ofOutcome (x.mapError Trouble.unlined) := by
  cases x <;> rfl

/-- **Evaluation does not see lines**, except in what it says about an error. -/
theorem eval_unlined (places : Int) (e : Expr) : ∀ a : Allowance Layer,
    e.unlined.eval places a = (e.eval places a).mapError Halt.unlined := by
  induction e with
  | literal v => intro a; rfl
  | grouping e ih =>
    intro a
    rw [unlined, eval, eval, mapError_bind, mapError_descend]
    simp only [ih]
  | unary op e ih =>
    intro a
    rw [unlined, eval, eval, mapError_bind, mapError_descend]
    simp only [ih, mapError_bind, applyUnary_unlined, mapError_ofOutcome]
  | binary l op r ihl ihr =>
    intro a
    rw [unlined, eval, eval, mapError_bind, mapError_descend]
    simp only [ihl, ihr, mapError_bind, applyBinary_unlined, mapError_ofOutcome]
  | conditional c t e ihc iht ihe =>
    intro a
    rw [unlined, eval, eval, mapError_bind, mapError_descend]
    simp only [ihc, iht, ihe, mapError_bind]
    congr 1
    funext a
    congr 1
    funext v
    split <;> rfl
  | absent | bare _ => intro a; rfl

/-! ### Rendering -/

theorem infixForm_unlined (e : Expr) : ∀ a : Allowance Layer,
    e.unlined.infixForm a = e.infixForm a := by
  have hlexeme : ∀ op : Token, op.unlined.lexeme = op.lexeme := fun _ => rfl
  induction e with
  | literal v => exact fun a => rfl
  | grouping e ih => intro a; simp only [unlined, infixForm, ih]
  | unary op e ih => intro a; simp only [unlined, infixForm, ih, hlexeme]
  | binary l op r ihl ihr => intro a; simp only [unlined, infixForm, ihl, ihr, hlexeme]
  | conditional c t e ihc iht ihe => intro a; simp only [unlined, infixForm, ihc, iht, ihe]
  | absent | bare _ => exact fun a => rfl

end Expr

end LoxCalc
