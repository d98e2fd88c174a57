import LoxCalc.Expr.Evaluation
import LoxCalc.Expr.Printer
import LoxCalc.Proofs.Grammar.Reading
import LoxCalc.Proofs.Nesting.Exhaustion

/-!
# How walks over trees end

There are three walks over trees: the evaluation and the two printed forms.  Each is
`Bounded`, so its bound can stop it and do nothing else, and `ends_eval` says once what an
evaluation ends in if it is not stopped.

**Faults are the fault of the tree.**  A tree is `Faultless` if evaluation has a rule for
all its operators and its literals are values of the language.  Such a tree is printed,
and its evaluation ends in a value of the language or in a runtime error; only a negative
number of decimal places is still a fault.

* `bounded_eval`, `bounded_prefixForm`, `bounded_infixForm`: the bounds of the walks.
* `ends_applyUnary`, `ends_applyBinary`, `ends_eval`: what an evaluation ends in.
* `Faultless.ends_eval`, `Faultless.ends_prefixForm`, `Faultless.ends_infixForm`: the walks
  over a faultless tree.
* `eval_ne_tooDeep`: no operator complains about depth.
-/

namespace LoxCalc

/-! ### Bounds -/

namespace Expr

variable (cost : Layer → Nat)

theorem ofOutcome_ne_exhausted {α : Type} (x : Except Trouble α) :
    ofOutcome x ≠ .error .exhausted := by
  cases x <;> nofun

theorem ofFault_ne_exhausted {α : Type} (x : Except Fault α) : ofFault x ≠ .error .exhausted := by
  cases x <;> nofun

/-- **Evaluation** stops at a bound or does not depend on it. -/
theorem bounded_eval (places : Int) (e : Expr) : Bounded fun n => e.eval places ⟨n, cost⟩ := by
  induction e with
  | literal v => exact .const nofun
  | grouping e ih => exact .descend Layer.grouping ih
  | unary op e ih =>
    exact .descend Layer.unary (ih.bind fun v => .const (ofOutcome_ne_exhausted _))
  | binary l op r ihl ihr =>
    exact .descend Layer.binary
      (ihl.bind fun v => ihr.bind fun w => .const (ofOutcome_ne_exhausted _))
  | conditional c t e ihc iht ihe =>
    refine .descend Layer.conditional (ihc.bind fun v => ?_)
    show Bounded fun n =>
      if v.isTruthy = true then t.eval places ⟨n, cost⟩ else e.eval places ⟨n, cost⟩
    split
    · exact iht
    · exact ihe
  | absent => exact .const nofun
  | bare t => exact .const nofun

theorem bounded_prefixForm (e : Expr) : Bounded fun n => e.prefixForm ⟨n, cost⟩ := by
  induction e with
  | literal v => exact .const (ofFault_ne_exhausted _)
  | grouping e ih => exact .descend Layer.grouping (ih.bind fun _ => .pure _)
  | unary op e ih => exact .descend Layer.unary (ih.bind fun _ => .pure _)
  | binary l op r ihl ihr =>
    exact .descend Layer.binary (ihl.bind fun _ => ihr.bind fun _ => .pure _)
  | conditional c t e ihc iht ihe =>
    exact .descend Layer.conditional
      (ihc.bind fun _ => iht.bind fun _ => ihe.bind fun _ => .pure _)
  | absent => exact .const nofun
  | bare t => exact .const nofun

theorem bounded_infixForm (e : Expr) : Bounded fun n => e.infixForm ⟨n, cost⟩ := by
  induction e with
  | literal v => exact .const (ofFault_ne_exhausted _)
  | grouping e ih => exact .descend Layer.grouping (ih.bind fun _ => .pure _)
  | unary op e ih => exact .descend Layer.unary (ih.bind fun _ => .pure _)
  | binary l op r ihl ihr =>
    exact .descend Layer.binary (ihl.bind fun _ => ihr.bind fun _ => .pure _)
  | conditional c t e ihc iht ihe =>
    exact .descend Layer.conditional
      (ihc.bind fun _ => iht.bind fun _ => ihe.bind fun _ => .pure _)
  | absent => exact .const nofun
  | bare t => exact .const nofun

end Expr

/-! ### Operators -/

namespace Value

variable {op : Token} {v w : Value} {e : RuntimeError}

theorem checkNumber_error (h : v.checkNumber op = .error e) : e = ⟨op, .operandNotNumber⟩ := by
  cases v <;> cases h <;> rfl

theorem checkNumbers_error (h : v.checkNumbers op w = .error e) :
    e = ⟨op, .operandsNotNumbers⟩ := by
  unfold checkNumbers at h
  split at h <;> cases h
  rfl

theorem checkString_error (h : v.checkString op = .error e) : e = ⟨op, .operandNotString⟩ := by
  cases v <;> cases h <;> rfl

end Value

namespace Expr

section Operators

variable {P : Value → Prop} {Q : Trouble → Prop} {places : Int} {op : Token} {v w : Value}

theorem ends_ofRuntime_bind {α : Type} {x : Except RuntimeError α} {next : α → Outcome}
    (herror : ∀ e, x = .error e → Q (.runtime e)) (hnext : ∀ a, Ends P Q (ofOutcome (next a))) :
    Ends P Q (ofOutcome (ofRuntime x >>= next)) := by
  cases x with
  | ok a => exact hnext a
  | error e => exact herror e rfl

theorem ends_applyUnary (hbool : ∀ b, P (.bool b)) (hnumber : ∀ x, P (.number x))
    (hrefused : Q (.runtime ⟨op, .operandNotNumber⟩))
    (hunknown : op.kind ≠ .bang → op.kind ≠ .minus → Q (.fault (.unexpectedUnary op.lexeme))) :
    Ends P Q (ofOutcome (applyUnary op v)) := by
  rw [applyUnary]
  split
  · refine ends_ofRuntime_bind (fun e he => ?_) fun x => hnumber _
    rw [Value.checkNumber_error he]
    exact hrefused
  · exact hbool _
  · rename_i hminus hbang
    exact hunknown hbang hminus

theorem ends_applyPlus (hnumber : ∀ x, P (.number x)) (hstring : ∀ s, P (.string s))
    (hrefused : ∀ cause, cause ≠ .tooDeep → Q (.runtime ⟨op, cause⟩))
    (hleft : ∀ f, v.display places = .error f → Q (.fault f))
    (hright : ∀ f, w.display places = .error f → Q (.fault f)) :
    Ends P Q (ofOutcome (applyPlus places op v w)) := by
  unfold applyPlus
  split
  · refine ends_ofRuntime_bind (fun e he => ?_) fun t => hstring _
    rw [Value.checkString_error he]
    exact hrefused _ nofun
  · refine ends_ofRuntime_bind (fun e he => ?_) fun y => hnumber _
    rw [Value.checkNumber_error he]
    exact hrefused _ nofun
  · -- the message shows both operands
    rw [operandText, operandText]
    cases hv : v.display places with
    | error f => exact hleft f hv
    | ok left =>
      cases hw : w.display places with
      | error f => exact hright f hw
      | ok right => exact hrefused _ nofun

theorem ends_applyBinary (hbool : ∀ b, P (.bool b)) (hnumber : ∀ x, P (.number x))
    (hstring : ∀ s, P (.string s)) (hw : P w)
    (hrefused : ∀ cause, cause ≠ .tooDeep → Q (.runtime ⟨op, cause⟩))
    (hleft : ∀ f, v.display places = .error f → Q (.fault f))
    (hright : ∀ f, w.display places = .error f → Q (.fault f))
    (hunknown : op.kind.level? = none → Q (.fault (.unexpectedBinary op.lexeme))) :
    Ends P Q (ofOutcome (applyBinary places op v w)) := by
  have hnumbers : ∀ next : Number × Number → Outcome,
      (∀ x, Ends P Q (ofOutcome (next x))) →
        Ends P Q (ofOutcome (ofRuntime (v.checkNumbers op w) >>= next)) := by
    intro next hnext
    refine ends_ofRuntime_bind (fun e he => ?_) hnext
    rw [Value.checkNumbers_error he]
    exact hrefused _ nofun
  unfold applyBinary
  split
  · exact hnumbers _ fun x => hnumber _
  rename_i harithmetic
  split
  · exact hnumbers _ fun x => hbool _
  rename_i hcomparison
  split
  · exact ends_applyPlus hnumber hstring hrefused hleft hright
  · exact hbool _
  · exact hbool _
  · exact hw
  · refine hunknown ?_
    cases hkind : op.kind <;> first | rfl | simp_all [arithmetic?, comparison?]

end Operators

/-! ### Trees -/

def AllLiterals (p : Value → Prop) : Expr → Prop
  | .literal v => p v
  | .grouping e => e.AllLiterals p
  | .unary _ e => e.AllLiterals p
  | .binary l _ r => l.AllLiterals p ∧ r.AllLiterals p
  | .conditional c t e => c.AllLiterals p ∧ t.AllLiterals p ∧ e.AllLiterals p
  | .absent | .bare _ => True

theorem AllLiterals.imp {p q : Value → Prop} (hpq : ∀ v, p v → q v) {e : Expr}
    (h : e.AllLiterals p) : e.AllLiterals q := by
  induction e with
  | literal v => exact hpq v h
  | grouping e ih => exact ih h
  | unary op e ih => exact ih h
  | binary l op r ihl ihr => exact ⟨ihl h.1, ihr h.2⟩
  | conditional c t e ihc iht ihe => exact ⟨ihc h.1, iht h.2.1, ihe h.2.2⟩
  | absent | bare _ => trivial

theorem allLiterals_true (e : Expr) : e.AllLiterals fun _ => True := by
  induction e with
  | literal _ | absent | bare _ => trivial
  | grouping e ih => exact ih
  | unary op e ih => exact ih
  | binary l op r ihl ihr => exact ⟨ihl, ihr⟩
  | conditional c t e ihc iht ihe => exact ⟨ihc, iht, ihe⟩

/-- Whether evaluation has a rule for everything in a tree. -/
def Evaluable : Expr → Prop
  | .literal _ => True
  | .grouping e => e.Evaluable
  | .unary op e => (op.kind = .bang ∨ op.kind = .minus) ∧ e.Evaluable
  | .binary l op r => op.kind.level?.isSome = true ∧ l.Evaluable ∧ r.Evaluable
  | .conditional c t e => c.Evaluable ∧ t.Evaluable ∧ e.Evaluable
  | .absent | .bare _ => False

theorem evaluable_of_shaped {e : Expr} (h : e.Shaped) : e.Evaluable := by
  induction e with
  | literal v => trivial
  | grouping e ih => exact ih h
  | unary op e ih => exact ⟨h.1, ih h.2.2⟩
  | binary l op r ihl ihr =>
    obtain ⟨n, hn, hl, hr, -⟩ := shaped_binary_iff.mp h
    exact ⟨by rw [hn]; rfl, ihl hl, ihr hr⟩
  | conditional c t e ihc iht ihe => exact ⟨ihc h.1, iht h.2.2.1, ihe h.2.2.2⟩
  | absent | bare _ => exact h.elim

/-- **What an evaluation ends in**, if it is not exhausted.  The values that operators
make and the literals of the tree have the property `P`; refusals have the property `Q`,
and so do the faults of operands that cannot be displayed.  Faults of the tree itself
need not be thought of if it can be evaluated. -/
theorem ends_eval {P : Value → Prop} {Q : Trouble → Prop} {places : Int}
    (hbool : ∀ b, P (.bool b)) (hnumber : ∀ x, P (.number x)) (hstring : ∀ s, P (.string s))
    (hrefused : ∀ op cause, cause ≠ .tooDeep → Q (.runtime ⟨op, cause⟩))
    (hdisplay : ∀ v f, P v → v.display places = .error f → Q (.fault f)) {e : Expr}
    (hlits : e.AllLiterals P) (he : e.Evaluable ∨ ∀ f, Q (.fault f)) :
    ∀ a : Allowance Layer, Ends P Q (e.eval places a) := by
  induction e with
  | literal v => exact fun a => hlits
  | grouping e ih => exact fun a => .descend fun rest => ih hlits he rest
  | unary op e ih =>
    have hunknown : op.kind ≠ .bang → op.kind ≠ .minus →
        Q (.fault (.unexpectedUnary op.lexeme)) := by
      intro hbang hminus
      rcases he with ⟨hop | hop, -⟩ | hall
      · exact absurd hop hbang
      · exact absurd hop hminus
      · exact hall _
    refine fun a => .descend fun rest => (ih hlits (he.imp_left And.right) rest).bind fun v _ => ?_
    exact ends_applyUnary hbool hnumber (hrefused op _ nofun) hunknown
  | binary l op r ihl ihr =>
    have hunknown : op.kind.level? = none → Q (.fault (.unexpectedBinary op.lexeme)) := by
      intro hop
      rcases he with ⟨hknown, -⟩ | hall
      · rw [hop] at hknown
        cases hknown
      · exact hall _
    refine fun a => .descend fun rest => ?_
    refine (ihl hlits.1 (he.imp_left fun h => h.2.1) rest).bind fun v hv => ?_
    refine (ihr hlits.2 (he.imp_left fun h => h.2.2) rest).bind fun w hw => ?_
    exact ends_applyBinary hbool hnumber hstring hw (hrefused op) (hdisplay v · hv)
      (hdisplay w · hw) hunknown
  | conditional c t e ihc iht ihe =>
    refine fun a => .descend fun rest => ?_
    refine (ihc hlits.1 (he.imp_left fun h => h.1) rest).bind fun v _ => ?_
    show Ends P Q (if v.isTruthy = true then t.eval places rest else e.eval places rest)
    split
    · exact iht hlits.2.1 (he.imp_left fun h => h.2.1) rest
    · exact ihe hlits.2.2 (he.imp_left fun h => h.2.2) rest
  | absent => exact fun a => he.elim False.elim fun hall => hall _
  | bare t => exact fun a => he.elim False.elim fun hall => hall _

/-- **No operator complains about depth**: an evaluation that is not exhausted does not
end in the error of one that is. -/
theorem eval_ne_tooDeep (e : Expr) (places : Int) (a : Allowance Layer) (op : Token) :
    e.eval places a ≠ .error (.raised (.runtime ⟨op, .tooDeep⟩)) := by
  intro heval
  have hends : Ends (fun _ => True) (fun t => t ≠ .runtime ⟨op, .tooDeep⟩) (e.eval places a) := by
    refine ends_eval (fun _ => trivial) (fun _ => trivial) (fun _ => trivial) ?_ ?_
      e.allLiterals_true (Or.inr fun f h => nomatch h) a
    · intro op' cause hcause heq
      exact hcause (congrArg RuntimeError.cause (Trouble.runtime.inj heq))
    · exact fun v f _ _ h => nomatch h
  rw [heval] at hends
  exact hends rfl

end Expr

/-! ### Faultless trees -/

def Value.Native : Value → Prop
  | .foreign _ => False
  | _ => True

namespace Value

variable {v : Value} {f : Fault}

theorem placesFault?_eq_none (places : Places) : placesFault? places = none := by
  rw [placesFault?, if_neg (Int.not_lt.mpr (Int.natCast_nonneg _)),
    if_pos (Int.ofNat_lt.mpr places.isLt)]

/-- **A value of the language can be displayed**, unless it is a number and there are no such
places. -/
theorem Native.display_error (hv : v.Native) {places : Int} (h : v.display places = .error f) :
    v.isNumber = true ∧ placesFault? places = some f := by
  cases v with
  | foreign n => exact hv.elim
  | nil | bool _ | string _ => cases h
  | number x =>
    rw [display] at h
    split at h
    · rename_i fault hfault
      exact ⟨rfl, hfault.trans (congrArg some (Except.error.inj h))⟩
    · cases h

/-- **With so many places as there can be**, a value of the language is displayed. -/
theorem Native.display_places (hv : v.Native) (places : Places) :
    ∃ text, v.display places = .ok text := by
  cases h : v.display places with
  | ok text => exact ⟨text, rfl⟩
  | error f =>
    have hfault := (hv.display_error h).2
    rw [placesFault?_eq_none] at hfault
    cases hfault

theorem Native.literalText_ne (hv : v.Native) : v.literalText ≠ .error f := by
  cases v with
  | foreign n => exact hv.elim
  | nil | bool _ | string _ | number _ => nofun

theorem Native.infixLiteral_ne (hv : v.Native) : Expr.infixLiteral v ≠ .error f := by
  unfold Expr.infixLiteral
  split
  · nofun
  · nofun
  · exact hv.literalText_ne

end Value

namespace Expr

/-- Whether nothing in a tree can be the cause of a fault. -/
structure Faultless (e : Expr) : Prop where
  evaluable : e.Evaluable
  literals : e.AllLiterals Value.Native

variable {e : Expr}

/-- **A faultless tree is evaluated** to a value of the language, to a runtime error, or
to the fault of a number of places that there cannot be. -/
theorem Faultless.ends_eval (h : e.Faultless) (places : Int) (a : Allowance Layer) :
    Ends Value.Native (fun t => ∀ f, t = .fault f → Value.placesFault? places = some f)
      (e.eval places a) := by
  refine Expr.ends_eval (fun _ => trivial) (fun _ => trivial) (fun _ => trivial)
    (fun op cause _ f hf => nomatch hf) ?_ h.literals (Or.inl h.evaluable) a
  intro v f hv hdisplay f' hf
  obtain rfl := Trouble.fault.inj hf
  exact (hv.display_error hdisplay).2

theorem Faultless.native_of_evaluate (h : e.Faultless) {places : Int} {a : Allowance Layer}
    {v : Value} (hv : e.evaluate a places = .ok v) : v.Native := by
  have hends := h.ends_eval places a
  rw [evaluate] at hv
  cases heval : e.eval places a with
  | ok w =>
    rw [heval] at hv hends
    cases hv
    exact hends
  | error halt => cases halt <;> simp [heval] at hv

theorem Faultless.evaluate_fault (h : e.Faultless) {places : Int} {a : Allowance Layer}
    {f : Fault} (hf : e.evaluate a places = .error (.fault f)) :
    Value.placesFault? places = some f := by
  have hends := h.ends_eval places a
  rw [evaluate] at hf
  cases heval : e.eval places a with
  | ok w => simp [heval] at hf
  | error halt =>
    cases halt with
    | exhausted => simp [heval] at hf
    | raised t =>
      rw [heval] at hf hends
      exact hends f (Except.error.inj hf)

theorem Faultless.evaluate_ne_fault (h : e.Faultless) (places : Places) {a : Allowance Layer}
    {f : Fault} : e.evaluate a places ≠ .error (.fault f) := by
  intro hf
  have hfault := h.evaluate_fault hf
  rw [Value.placesFault?_eq_none] at hfault
  cases hfault

theorem ends_ofFault {x : Except Fault String} (h : ∀ f, x ≠ .error f) :
    Ends (fun _ => True) (fun _ => False) (ofFault x) := by
  cases x with
  | ok text => trivial
  | error f => exact h f rfl

theorem ends_pure {text : String} :
    Ends (fun _ => True) (fun _ => False) (pure text : Printed) := trivial

theorem Faultless.ends_prefixForm (h : e.Faultless) : ∀ a : Allowance Layer,
    Ends (fun _ => True) (fun _ => False) (e.prefixForm a) := by
  obtain ⟨hevaluable, hlits⟩ := h
  induction e with
  | literal v => exact fun a => ends_ofFault fun f => hlits.literalText_ne
  | grouping e ih =>
    exact fun a => .descend fun rest => (ih hevaluable hlits rest).bind fun _ _ => ends_pure
  | unary op e ih =>
    exact fun a => .descend fun rest => (ih hevaluable.2 hlits rest).bind fun _ _ => ends_pure
  | binary l op r ihl ihr =>
    exact fun a => .descend fun rest => (ihl hevaluable.2.1 hlits.1 rest).bind fun _ _ =>
      (ihr hevaluable.2.2 hlits.2 rest).bind fun _ _ => ends_pure
  | conditional c t e ihc iht ihe =>
    exact fun a => .descend fun rest => (ihc hevaluable.1 hlits.1 rest).bind fun _ _ =>
      (iht hevaluable.2.1 hlits.2.1 rest).bind fun _ _ =>
        (ihe hevaluable.2.2 hlits.2.2 rest).bind fun _ _ => ends_pure
  | absent | bare _ => exact hevaluable.elim

theorem Faultless.ends_infixForm (h : e.Faultless) : ∀ a : Allowance Layer,
    Ends (fun _ => True) (fun _ => False) (e.infixForm a) := by
  obtain ⟨hevaluable, hlits⟩ := h
  induction e with
  | literal v => exact fun a => ends_ofFault fun f => hlits.infixLiteral_ne
  | grouping e ih =>
    exact fun a => .descend fun rest => (ih hevaluable hlits rest).bind fun _ _ => ends_pure
  | unary op e ih =>
    exact fun a => .descend fun rest => (ih hevaluable.2 hlits rest).bind fun _ _ => ends_pure
  | binary l op r ihl ihr =>
    exact fun a => .descend fun rest => (ihl hevaluable.2.1 hlits.1 rest).bind fun _ _ =>
      (ihr hevaluable.2.2 hlits.2 rest).bind fun _ _ => ends_pure
  | conditional c t e ihc iht ihe =>
    exact fun a => .descend fun rest => (ihc hevaluable.1 hlits.1 rest).bind fun _ _ =>
      (iht hevaluable.2.1 hlits.2.1 rest).bind fun _ _ =>
        (ihe hevaluable.2.2 hlits.2.2 rest).bind fun _ _ => ends_pure
  | absent | bare _ => exact hevaluable.elim

end Expr

end LoxCalc
