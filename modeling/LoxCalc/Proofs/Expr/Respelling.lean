import LoxCalc.Proofs.Expr.Ends
import LoxCalc.Proofs.Expr.Lines

/-!
# What a tree becomes in writing

The infix form of a tree is not read back as the tree itself.  Every operation is
inside parentheses of its own, so it comes back inside a group; a number with a sign
comes back as an operation on the number without it; and an infinity or a NaN, for
which there is no literal, comes back as a division.  `Expr.respelled` makes these
changes to the tree.  **None of them changes a value** (`eval_respelled`), and if no
literal needs one then only groups are added (`ungrouped_respelled`).

`Expr.Writable` says which trees this is about: those that the grammar can express,
with operators as the scanner makes them.
-/

namespace LoxCalc

/-! ### Trees that can be written -/

/-- Whether a value has a literal, or an operation in its place, in source. -/
def Value.Writable : Value → Prop
  | .string s => '"' ∉ s.toList
  | .foreign _ => False
  | _ => True

/-- Whether a token is an operator as the scanner makes it. -/
def Token.AsScanned (op : Token) : Prop :=
  op = .operator op.kind op.line

/-- Whether a number literal in source stands for the value, if it is a number. -/
def Value.ClearSigned : Value → Prop
  | .number (.finite negative _) => negative = false
  | .number _ => False
  | _ => True

namespace Expr

/-- Whether the grammar has the operators of a tree, and nothing in it is no
expression. -/
def OperatorsKnown : Expr → Prop
  | .literal _ => True
  | .grouping e => e.OperatorsKnown
  | .unary op e => (op.kind = .bang ∨ op.kind = .minus) ∧ op.AsScanned ∧ e.OperatorsKnown
  | .binary l op r =>
    op.kind.level?.isSome = true ∧ op.AsScanned ∧ l.OperatorsKnown ∧ r.OperatorsKnown
  | .conditional c t e => c.OperatorsKnown ∧ t.OperatorsKnown ∧ e.OperatorsKnown
  | .absent | .bare _ => False

/-- Whether a tree can be written as source. -/
def Writable (e : Expr) : Prop :=
  e.OperatorsKnown ∧ e.AllLiterals Value.Writable

def ungrouped : Expr → Expr
  | .grouping e => e.ungrouped
  | .unary op e => .unary op e.ungrouped
  | .binary l op r => .binary l.ungrouped op r.ungrouped
  | .conditional c t e => .conditional c.ungrouped t.ungrouped e.ungrouped
  | e => e

theorem ungrouped_unlined (e : Expr) : e.unlined.ungrouped = e.ungrouped.unlined := by
  induction e with
  | grouping e ih => exact ih
  | unary op e ih => rw [unlined, ungrouped, ungrouped, ih, unlined]
  | binary l op r ihl ihr => rw [unlined, ungrouped, ungrouped, ihl, ihr, unlined]
  | conditional c t e ihc iht ihe =>
    rw [unlined, ungrouped, ungrouped, ihc, iht, ihe, unlined]
  | literal _ | absent | bare _ => rfl

end Expr

/-! ### Respelling -/

namespace Number

def zero : Number := ofRank false 0

def one : Number := ofRank false 0x3FF0000000000000

theorem zero_divide_zero : zero.divide zero = .nan := rfl

theorem one_divide_zero : one.divide zero = .infinite false := rfl

theorem negate_one_divide_zero : one.negate.divide zero = .infinite true := rfl

end Number

/-- The tree that the text of a literal is read back as. -/
def Value.respelled : Value → Expr
  | .number .nan =>
    .grouping (.binary (.literal (.number .zero)) (.operator .slash 0) (.literal (.number .zero)))
  | .number (.infinite false) =>
    .grouping (.binary (.literal (.number .one)) (.operator .slash 0) (.literal (.number .zero)))
  | .number (.infinite true) =>
    .grouping (.binary (.unary (.operator .minus 0) (.literal (.number .one)))
      (.operator .slash 0) (.literal (.number .zero)))
  | .number (.finite true rank) =>
    .unary (.operator .minus 0) (.literal (.number (.finite false rank)))
  | v => .literal v

namespace Expr

/-- The tree that the infix form of a tree is read back as, up to lines. -/
def respelled : Expr → Expr
  | .literal v => v.respelled
  | .grouping e => .grouping e.respelled
  | .unary op e => .grouping (.unary op e.respelled)
  | .binary l op r => .grouping (.binary l.respelled op r.respelled)
  | .conditional c t e => .grouping (.conditional c.respelled t.respelled e.respelled)
  | e => e

/-! ### Shape -/

theorem level_respelled (e : Expr) : e.respelled.level = operandLevel := by
  cases e with
  | literal v =>
    rw [respelled]
    unfold Value.respelled
    split <;> rfl
  | grouping _ | unary _ _ | binary _ _ _ | conditional _ _ _ | absent | bare _ => rfl

theorem endsInBranch_respelled (e : Expr) : e.respelled.endsInBranch = false := by
  cases e with
  | literal v =>
    rw [respelled]
    unfold Value.respelled
    split <;> rfl
  | grouping _ | unary _ _ | binary _ _ _ | conditional _ _ _ | absent | bare _ => rfl

/-- Operands of the level of a literal may stand on both sides of every operator. -/
theorem shaped_binary_of_operandLevel {l r : Expr} {op : Token}
    (hop : op.kind.level?.isSome = true) (hl : l.Shaped) (hr : r.Shaped)
    (hllevel : l.level = operandLevel) (hlend : l.endsInBranch = false)
    (hrlevel : r.level = operandLevel) : (binary l op r).Shaped := by
  obtain ⟨n, hn⟩ := Option.isSome_iff_exists.mp hop
  have hlt : n < operandLevel := level_lt_operandLevel hn
  exact shaped_binary_iff.mpr ⟨n, hn, hl, hr, ⟨by omega, hlend⟩,
    rightOf_of_operandLevel hn (Nat.le_of_eq hrlevel.symm)⟩

theorem shaped_grouping {e : Expr} (h : e.Shaped) : (grouping e).Shaped := h

theorem shaped_respelled_literal (v : Value) : v.respelled.Shaped := by
  unfold Value.respelled
  split
  · exact shaped_grouping (shaped_binary_of_operandLevel rfl trivial trivial rfl rfl rfl)
  · exact shaped_grouping (shaped_binary_of_operandLevel rfl trivial trivial rfl rfl rfl)
  · have hsign : (unary (.operator .minus 0) (literal (.number .one))).Shaped :=
      ⟨Or.inr rfl, Nat.le_refl _, trivial⟩
    exact shaped_grouping (shaped_binary_of_operandLevel rfl hsign trivial rfl rfl rfl)
  · exact ⟨Or.inr rfl, Nat.le_refl _, trivial⟩
  · trivial

/-- **A respelled tree is shaped**, since every operation in it is inside a group. -/
theorem shaped_respelled {e : Expr} (h : e.OperatorsKnown) : e.respelled.Shaped := by
  induction e with
  | literal v => exact shaped_respelled_literal v
  | grouping e ih => exact ih h
  | unary op e ih => exact ⟨h.1, Nat.le_of_eq (level_respelled e).symm, ih h.2.2⟩
  | binary l op r ihl ihr =>
    obtain ⟨hop, -, hl, hr⟩ := h
    exact shaped_binary_of_operandLevel hop (ihl hl) (ihr hr) (level_respelled l)
      (endsInBranch_respelled l) (level_respelled r)
  | conditional c t e ihc iht ihe =>
    obtain ⟨hc, ht, he⟩ := h
    have hlevel : conditionLevel ≤ c.respelled.level := by
      rw [level_respelled]
      decide
    exact ⟨ihc hc, hlevel, iht ht, ihe he⟩
  | absent | bare _ => exact h.elim

/-! ### Groups -/

theorem respelled_of_clearSigned {v : Value} (h : v.ClearSigned) : v.respelled = .literal v := by
  unfold Value.respelled
  split
  · exact h.elim
  · exact h.elim
  · exact h.elim
  · cases h
  · rfl

/-- **Without signs, infinities and NaN only groups are added.** -/
theorem ungrouped_respelled {e : Expr} (h : e.AllLiterals Value.ClearSigned) :
    e.respelled.ungrouped = e.ungrouped := by
  induction e with
  | literal v => rw [respelled, respelled_of_clearSigned h]
  | grouping e ih => exact ih h
  | unary op e ih => rw [respelled, ungrouped, ungrouped, ih h, ungrouped]
  | binary l op r ihl ihr => rw [respelled, ungrouped, ungrouped, ihl h.1, ihr h.2, ungrouped]
  | conditional c t e ihc iht ihe =>
    rw [respelled, ungrouped, ungrouped, ihc h.1, iht h.2.1, ihe h.2.2, ungrouped]
  | absent | bare _ => rfl

/-! ### Values -/

section Evaluation

variable (places : Int) (a : Allowance Layer)

theorem eval_grouping_unbounded (e : Expr) :
    (grouping e).eval places a.unbounded = e.eval places a.unbounded := rfl

theorem eval_unary_unbounded (op : Token) (e : Expr) :
    (unary op e).eval places a.unbounded =
      e.eval places a.unbounded >>= fun v => ofOutcome (applyUnary op v) := rfl

theorem eval_binary_unbounded (l : Expr) (op : Token) (r : Expr) :
    (binary l op r).eval places a.unbounded =
      l.eval places a.unbounded >>= fun v =>
        r.eval places a.unbounded >>= fun w => ofOutcome (applyBinary places op v w) := rfl

theorem eval_conditional_unbounded (c t e : Expr) :
    (conditional c t e).eval places a.unbounded =
      c.eval places a.unbounded >>= fun v =>
        if v.isTruthy then t.eval places a.unbounded else e.eval places a.unbounded := rfl

theorem eval_respelled_literal (v : Value) :
    v.respelled.eval places a.unbounded = .ok v := by
  unfold Value.respelled
  split
  · show (.ok (.number (Number.zero.divide .zero)) : Except (Halt Trouble) Value) = _
    rw [Number.zero_divide_zero]
  · show (.ok (.number (Number.one.divide .zero)) : Except (Halt Trouble) Value) = _
    rw [Number.one_divide_zero]
  · show (.ok (.number (Number.one.negate.divide .zero)) : Except (Halt Trouble) Value) = _
    rw [Number.negate_one_divide_zero]
  · rfl
  · rfl

/-- **A respelled tree has the value of the tree**, or its error. -/
theorem eval_respelled (e : Expr) :
    e.respelled.eval places a.unbounded = e.eval places a.unbounded := by
  induction e with
  | literal v => exact eval_respelled_literal places a v
  | grouping e ih => exact ih
  | unary op e ih =>
    rw [respelled, eval_grouping_unbounded, eval_unary_unbounded, eval_unary_unbounded, ih]
  | binary l op r ihl ihr =>
    rw [respelled, eval_grouping_unbounded, eval_binary_unbounded, eval_binary_unbounded, ihl, ihr]
  | conditional c t e ihc iht ihe =>
    rw [respelled, eval_grouping_unbounded, eval_conditional_unbounded,
      eval_conditional_unbounded, ihc, iht, ihe]
  | absent | bare _ => rfl

end Evaluation

end Expr

/-! ### Ends of an evaluation -/

theorem Value.native_of_writable {v : Value} (h : v.Writable) : v.Native := by
  cases v with
  | foreign n => exact h.elim
  | nil | bool _ | number _ | string _ => trivial

namespace Expr

theorem evaluable_of_operatorsKnown {e : Expr} (h : e.OperatorsKnown) : e.Evaluable := by
  induction e with
  | literal v => trivial
  | grouping e ih => exact ih h
  | unary op e ih => exact ⟨h.1, ih h.2.2⟩
  | binary l op r ihl ihr => exact ⟨h.1, ihl h.2.2.1, ihr h.2.2.2⟩
  | conditional c t e ihc iht ihe => exact ⟨ihc h.1, iht h.2.1, ihe h.2.2⟩
  | absent | bare _ => exact h.elim

theorem Writable.faultless {e : Expr} (h : e.Writable) : e.Faultless :=
  ⟨evaluable_of_operatorsKnown h.1, h.2.imp fun _ => Value.native_of_writable⟩

/-- Whether an evaluation ends with a value of the language, with a runtime error, or
with the fault of a number of places that there cannot be. -/
def EndsProperly (places : Int) : Except (Halt Trouble) Value → Prop
  | .ok v => v.Native
  | .error (.raised (.runtime _)) => True
  | .error (.raised (.fault f)) => Value.placesFault? places = some f
  | .error .exhausted => False

/-- **A tree that can be written has a value or a runtime error**, with so many places
as there can be. -/
theorem endsProperly_eval (places : Int) (a : Allowance Layer) {e : Expr} (h : e.Writable) :
    EndsProperly places (e.eval places a.unbounded) := by
  have hends := h.faultless.ends_eval places a.unbounded
  have hunbounded : e.eval places a.unbounded ≠ .error .exhausted :=
    (e.bounded_eval a.cost places).unbounded
  cases heval : e.eval places a.unbounded with
  | ok v =>
    rw [heval] at hends
    exact hends
  | error halt =>
    cases halt with
    | exhausted => exact absurd heval hunbounded
    | raised t =>
      cases t with
      | runtime e => trivial
      | fault f =>
        rw [heval] at hends
        exact hends f rfl

/-- The same end of two evaluations: the same value, or runtime errors with one
message at operators of one kind.  A fault is the end of both if there cannot be so many
places, and only then. -/
def SameEnd (places : Int) : Outcome → Outcome → Prop
  | .ok v, .ok w => v = w
  | .error (.runtime e), .error (.runtime f) =>
    e.message = f.message ∧ e.token.kind = f.token.kind
  | .error (.fault f), .error (.fault g) => f = g ∧ Value.placesFault? places = some f
  | _, _ => False

theorem exists_runtime_of_unlined {halt : Halt Trouble} {e : RuntimeError}
    (h : halt.unlined = .raised (.runtime e.unlined)) :
    ∃ f, halt = .raised (.runtime f) ∧ f.message = e.message ∧ f.token.kind = e.token.kind := by
  cases halt with
  | exhausted => cases h
  | raised t =>
    cases t with
    | fault f => cases h
    | runtime f =>
      obtain ⟨htoken, hcause⟩ := RuntimeError.mk.inj (Trouble.runtime.inj (Halt.raised.inj h))
      have hkind := congrArg Token.kind htoken
      exact ⟨f, rfl, congrArg RuntimeError.Cause.message hcause, hkind⟩

theorem eq_of_unlined_fault {halt : Halt Trouble} {f : Fault}
    (h : halt.unlined = .raised (.fault f)) : halt = .raised (.fault f) := by
  cases halt with
  | exhausted => cases h
  | raised t =>
    cases t with
    | fault g => exact h
    | runtime e => cases h

/-- **Trees that are the same up to lines end alike.** -/
theorem sameEnd_of_unlined (places : Int) (a : Allowance Layer) {e f : Expr} (he : e.Writable)
    (h : (f.eval places a.unbounded).mapError Halt.unlined =
      (e.eval places a.unbounded).mapError Halt.unlined) :
    SameEnd places (f.evaluate a.unbounded places) (e.evaluate a.unbounded places) := by
  have hproper := endsProperly_eval places a he
  rw [evaluate, evaluate]
  generalize e.eval places a.unbounded = x at h hproper ⊢
  generalize f.eval places a.unbounded = y at h ⊢
  cases x with
  | ok v =>
    cases y with
    | ok w => exact Except.ok.inj h
    | error halt => cases h
  | error halt =>
    cases y with
    | ok w => cases h
    | error halt' =>
      have hhalt : halt'.unlined = halt.unlined := Except.error.inj h
      cases halt with
      | exhausted => exact hproper.elim
      | raised t =>
        cases t with
        | fault fault =>
          rw [eq_of_unlined_fault hhalt]
          exact ⟨rfl, hproper⟩
        | runtime error =>
          obtain ⟨error', rfl, hsame⟩ := exists_runtime_of_unlined hhalt
          exact hsame

end Expr

end LoxCalc
