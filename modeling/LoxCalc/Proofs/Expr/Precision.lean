import LoxCalc.Proofs.Expr.Visits

/-!
# The number of decimal places

An evaluation is given a number of decimal places for the one message that shows operands, that
of a `+` whose left operand is neither a string nor a number.  **The number has no part in
anything else.**  Either an evaluation ends in the same way with every number of places
(`Steady`), or with every number of places it comes to the same `+` with the same operands
(`MismatchAt`), and then the message shows them with that number of places.  There is no message
if the right operand is a number and cannot be displayed with so many places (`MismatchEnd`).

One operator is looked at first (`steady_applyBinary`), and then the two alternatives are carried
up the tree.  The order of evaluation is what the induction needs: an operand that is steady has
one value with all numbers of places, so all evaluations go on in the same way.

* `Expr.eval_places`: the alternatives for a walk within an allowance.
* `Expr.evaluate_places`: the alternatives for the outcome and its message.
-/

namespace LoxCalc

theorem Value.display_foreign {v : Value} (h : ¬ v.Native) :
    ∃ f, ∀ places, v.display places = .error f := by
  cases v with
  | foreign n => exact ⟨_, fun _ => rfl⟩
  | nil | bool _ | number _ | string _ => exact absurd trivial h

namespace Expr

open Position

def ShowsNoOperands (t : Trouble) : Prop :=
  ∀ op left right, t ≠ .runtime ⟨op, .mismatchedOperands left right⟩

theorem showsNoOperands_fault (f : Fault) : ShowsNoOperands (.fault f) :=
  fun _ _ _ h => nomatch h

theorem showsNoOperands_runtime {op : Token} {cause : RuntimeError.Cause}
    (h : ∀ left right, cause ≠ .mismatchedOperands left right) :
    ShowsNoOperands (.runtime ⟨op, cause⟩) :=
  fun _ left right heq => h left right (congrArg RuntimeError.cause (Trouble.runtime.inj heq))

/-- Whether walks with all numbers of places end in the same way, and not in a message that shows
operands. -/
def Steady (walk : Nat → Except (Halt Trouble) Value) : Prop :=
  ∃ outcome, Ends (fun _ => True) ShowsNoOperands outcome ∧ ∀ places, walk places = outcome

/-- Whether a `+` has a left operand that is neither a string nor a number. -/
structure RefusesLeft (op : Token) (left : Value) : Prop where
  plus : op.kind = .plus
  not_string : left.isString = false
  not_number : left.isNumber = false

structure Mismatches (op : Token) (left right : Value) : Prop where
  refuses : RefusesLeft op left
  left_native : left.Native
  right_native : right.Native

/-- How an operator that refuses its operands ends: it shows them, or the right one is a number that
cannot be displayed with so many places. -/
inductive MismatchEnd (places : Nat) (op : Token) (v w : Value) : Outcome → Prop
  | shown {left right : String} (hleft : v.display places = .ok left)
      (hright : w.display places = .ok right) :
      MismatchEnd places op v w (.error (.runtime ⟨op, .mismatchedOperands left right⟩))
  | fault {f : Fault} (hnumber : w.isNumber = true) (hplaces : Value.placesFault? places = some f) :
      MismatchEnd places op v w (.error (.fault f))

/-- Whether evaluations with all numbers of places come to the same operator at a position, with
the same operands, which it refuses. -/
def MismatchAt (a : Allowance Layer) (e : Expr) (p : Position) (op : Token) (left right : Value) :
    Prop :=
  Mismatches op left right ∧ ∃ b c l r, ∀ places : Nat,
    Reaches places a e p b (.binary l op r) ∧ b.enter? .binary = some c ∧
      l.eval places c = .ok left ∧ r.eval places c = .ok right

def Mismatched (a : Allowance Layer) (e : Expr) : Prop :=
  ∃ p op left right, MismatchAt a e p op left right

variable {a b : Allowance Layer} {e f : Expr} {op : Token} {v w : Value}

/-! ### One operator -/

/-- **A `+` that refuses its left operand** shows both operands. -/
theorem RefusesLeft.applyBinary_eq (h : RefusesLeft op v) (places : Int) :
    applyBinary places op v w = operandText places v >>= fun left =>
      operandText places w >>= fun right =>
        .error (.runtime ⟨op, .mismatchedOperands left right⟩) := by
  have happly : applyBinary places op v w = applyPlus places op v w := by
    rw [applyBinary, h.plus]
    rfl
  rw [happly]
  cases v with
  | string s => cases h.not_string
  | number x => cases h.not_number
  | nil | bool _ | foreign _ => rfl

theorem RefusesLeft.exists_display (h : RefusesLeft op v) (hv : v.Native) (places : Int) :
    ∃ text, v.display places = .ok text := by
  cases htext : v.display places with
  | ok text => exact ⟨text, rfl⟩
  | error f =>
    have hnumber := (hv.display_error htext).1
    rw [h.not_number] at hnumber
    cases hnumber

/-- **The message of a mismatch** shows both operands, as they are displayed. -/
theorem Mismatches.applyBinary_end (h : Mismatches op v w) (places : Nat) :
    MismatchEnd places op v w (applyBinary places op v w) := by
  obtain ⟨left, hleft⟩ := h.refuses.exists_display h.left_native places
  rw [h.refuses.applyBinary_eq]
  simp only [operandText, hleft]
  cases hright : w.display places with
  | ok right => exact .shown hleft hright
  | error f =>
    obtain ⟨hnumber, hplaces⟩ := h.right_native.display_error hright
    exact .fault hnumber hplaces

/-- **With so many places as there can be** the operands are shown. -/
theorem MismatchEnd.exists_shown {places : Places} {outcome : Outcome}
    (h : MismatchEnd places op v w outcome) :
    ∃ left right, outcome = .error (.runtime ⟨op, .mismatchedOperands left right⟩) := by
  cases h with
  | shown _ _ => exact ⟨_, _, rfl⟩
  | fault _ hplaces =>
    rw [Value.placesFault?_eq_none] at hplaces
    cases hplaces

theorem steady_const {outcome : Except (Halt Trouble) Value}
    (h : Ends (fun _ => True) ShowsNoOperands outcome) : Steady fun _ => outcome :=
  ⟨outcome, h, fun _ => rfl⟩

theorem steady_applyUnary (op : Token) (v : Value) :
    Steady fun _ => ofOutcome (applyUnary op v) :=
  steady_const (ends_applyUnary (fun _ => trivial) (fun _ => trivial)
    (showsNoOperands_runtime nofun) fun _ _ => showsNoOperands_fault _)

/-- The operands are shown if they can be shown; if not, they cannot be shown with any number of
places. -/
theorem RefusesLeft.steady_or (h : RefusesLeft op v) (w : Value) :
    Steady (fun places => ofOutcome (applyBinary places op v w)) ∨ Mismatches op v w := by
  by_cases hv : v.Native
  · by_cases hw : w.Native
    · exact Or.inr ⟨h, hv, hw⟩
    · obtain ⟨f, hf⟩ := Value.display_foreign hw
      refine Or.inl ⟨.error (.raised (.fault f)), showsNoOperands_fault f, fun places => ?_⟩
      obtain ⟨left, hleft⟩ := h.exists_display hv places
      simp only [h.applyBinary_eq, operandText, hleft, hf]
      rfl
  · obtain ⟨f, hf⟩ := Value.display_foreign hv
    refine Or.inl ⟨.error (.raised (.fault f)), showsNoOperands_fault f, fun places => ?_⟩
    simp only [h.applyBinary_eq, operandText, hf]
    rfl

theorem applyBinary_of_not_refusesLeft (h : ¬ RefusesLeft op v) (m n : Int) :
    applyBinary m op v w = applyBinary n op v w := by
  unfold applyBinary
  split
  · rfl
  split
  · rfl
  split
  · rename_i hkind
    cases v with
    | string s => rfl
    | number x => rfl
    | nil | bool _ | foreign _ => exact absurd ⟨hkind, rfl, rfl⟩ h
  all_goals rfl

theorem ends_checkNumbers {next : Number × Number → Outcome}
    (h : ∀ x, Ends (fun _ => True) ShowsNoOperands (ofOutcome (next x))) :
    Ends (fun _ => True) ShowsNoOperands (ofOutcome (ofRuntime (v.checkNumbers op w) >>= next)) := by
  refine ends_ofRuntime_bind (fun e he => ?_) h
  rw [Value.checkNumbers_error he]
  exact showsNoOperands_runtime nofun

theorem ends_applyBinary_of_not_refusesLeft (h : ¬ RefusesLeft op v) (places : Int) :
    Ends (fun _ => True) ShowsNoOperands (ofOutcome (applyBinary places op v w)) := by
  unfold applyBinary
  split
  · exact ends_checkNumbers fun x => trivial
  split
  · exact ends_checkNumbers fun x => trivial
  split
  · rename_i hkind
    cases v with
    | string s =>
      refine ends_ofRuntime_bind (fun e he => ?_) fun t => trivial
      rw [Value.checkString_error he]
      exact showsNoOperands_runtime nofun
    | number x =>
      refine ends_ofRuntime_bind (fun e he => ?_) fun y => trivial
      rw [Value.checkNumber_error he]
      exact showsNoOperands_runtime nofun
    | nil | bool _ | foreign _ => exact absurd ⟨hkind, rfl, rfl⟩ h
  · trivial
  · trivial
  · trivial
  · exact showsNoOperands_fault _

/-- **One binary operator**: what it gives does not depend on the number of places, or it shows
its operands. -/
theorem steady_applyBinary (op : Token) (v w : Value) :
    Steady (fun places => ofOutcome (applyBinary places op v w)) ∨ Mismatches op v w := by
  by_cases h : RefusesLeft op v
  · exact h.steady_or w
  · exact Or.inl ⟨_, ends_applyBinary_of_not_refusesLeft h 0,
      fun places => congrArg ofOutcome (applyBinary_of_not_refusesLeft h places 0)⟩

/-! ### Trees -/

theorem MismatchAt.step {i : Nat} {p : Position}
    (henter : ∀ places : Nat, Enters places a e i b f) (h : MismatchAt b f p op v w) :
    MismatchAt a e (i :: p) op v w := by
  obtain ⟨hmismatches, c, d, l, r, hreaches⟩ := h
  exact ⟨hmismatches, c, d, l, r, fun places =>
    ⟨.step (henter places) (hreaches places).1, (hreaches places).2⟩⟩

theorem Mismatched.step {i : Nat} (henter : ∀ places : Nat, Enters places a e i b f)
    (h : Mismatched b f) : Mismatched a e := by
  obtain ⟨p, op, v, w, h⟩ := h
  exact ⟨i :: p, op, v, w, h.step henter⟩

theorem steady_descend {M : Prop} {step : Layer}
    {inner : Nat → Allowance Layer → Except (Halt Trouble) Value}
    (h : ∀ b, a.enter? step = some b → Steady (fun places => inner places b) ∨ M) :
    Steady (fun places => a.descend step >>= inner places) ∨ M := by
  cases hb : a.enter? step with
  | none =>
    refine Or.inl ⟨.error .exhausted, trivial, fun places => ?_⟩
    simp only [Allowance.descend_of_none hb]
    rfl
  | some b =>
    simp only [Allowance.descend_of_some hb]
    exact h b hb

/-- **An operand that is steady** has one value with all numbers of places, if it has any. -/
theorem steady_bind {M : Prop} {walk : Nat → Except (Halt Trouble) Value}
    {next : Nat → Value → Except (Halt Trouble) Value} (h : Steady walk)
    (hnext : ∀ v, (∀ places, walk places = .ok v) → Steady (fun places => next places v) ∨ M) :
    Steady (fun places => walk places >>= next places) ∨ M := by
  obtain ⟨outcome, hends, hwalk⟩ := h
  cases outcome with
  | ok v =>
    simp only [hwalk]
    exact hnext v hwalk
  | error halt =>
    refine Or.inl ⟨.error halt, hends, fun places => ?_⟩
    simp only [hwalk]
    rfl

/-- **The number of places in an evaluation**: it does not matter at all, or operands are shown
with it. -/
theorem eval_places (e : Expr) : ∀ a : Allowance Layer,
    Steady (fun places => e.eval places a) ∨ Mismatched a e := by
  induction e with
  | literal v => exact fun a => Or.inl (steady_const trivial)
  | absent | bare _ => exact fun a => Or.inl (steady_const (showsNoOperands_fault _))
  | grouping e ih =>
    refine fun a => steady_descend fun b hb => (ih b).imp_right fun h => ?_
    exact h.step fun places => .grouping hb
  | unary op e ih =>
    refine fun a => steady_descend fun b hb => ?_
    rcases ih b with he | he
    · exact steady_bind he fun v hv => Or.inl (steady_applyUnary op v)
    · exact Or.inr (he.step fun places => .unary hb)
  | binary l op r ihl ihr =>
    refine fun a => steady_descend fun b hb => ?_
    rcases ihl b with hl | hl
    · refine steady_bind hl fun v hv => ?_
      rcases ihr b with hr | hr
      · refine steady_bind hr fun w hw => (steady_applyBinary op v w).imp_right fun h => ?_
        exact ⟨[], op, v, w, h, a, b, l, r, fun places => ⟨.here, hb, hv places, hw places⟩⟩
      · exact Or.inr (hr.step fun places => .right hb (hv places))
    · exact Or.inr (hl.step fun places => .left hb)
  | conditional c t e ihc iht ihe =>
    refine fun a => steady_descend fun b hb => ?_
    rcases ihc b with hc | hc
    · refine steady_bind hc fun v hv => ?_
      cases htruthy : v.isTruthy with
      | true =>
        simp only [if_true]
        exact (iht b).imp_right fun h => h.step fun places => .thenBranch hb (hv places) htruthy
      | false =>
        simp only [Bool.false_eq_true, if_false]
        exact (ihe b).imp_right fun h => h.step fun places => .elseBranch hb (hv places) htruthy
    · exact Or.inr (hc.step fun places => .condition hb)

theorem MismatchAt.evaluate_end {p : Position} (h : MismatchAt a e p op v w) (places : Nat) :
    MismatchEnd places op v w (e.evaluate a places) := by
  obtain ⟨hmismatches, b, c, l, r, h⟩ := h
  obtain ⟨hreaches, hc, hl, hr⟩ := h places
  obtain ⟨outcome, houtcome⟩ : ∃ outcome, applyBinary places op v w = outcome := ⟨_, rfl⟩
  have hend := hmismatches.applyBinary_end places
  rw [houtcome] at hend
  have hfails : ∀ t, outcome = .error t → e.evaluate a places = .error t := by
    intro t ht
    have hat : FailsAt places a e p t :=
      ⟨b, _, hreaches, .binary hc hl hr (houtcome.trans ht)⟩
    rw [evaluate, hat.eval_eq]
  cases hend with
  | shown hleft hright =>
    rw [hfails _ rfl]
    exact .shown hleft hright
  | fault hnumber hplaces =>
    rw [hfails _ rfl]
    exact .fault hnumber hplaces

/-- **The number of places in an outcome**: the outcome is the same with every number and shows
no operands, or with every number of places it is that of the same operator that refuses the same
operands and shows them with this number. -/
theorem evaluate_places (a : Allowance Layer) (e : Expr) :
    (∃ outcome : Outcome, (∀ places : Nat, e.evaluate a places = outcome) ∧
      ∀ t, outcome = .error t → ShowsNoOperands t) ∨
    ∃ p op v w, MismatchAt a e p op v w ∧
      ∀ places : Nat, MismatchEnd places op v w (e.evaluate a places) := by
  rcases e.eval_places a with ⟨outcome, hends, hwalk⟩ | ⟨p, op, v, w, h⟩
  · have heval : ∀ places : Nat, e.eval places a = outcome := hwalk
    refine Or.inl ⟨_, fun places => by rw [evaluate, heval places], fun t ht => ?_⟩
    cases outcome with
    | ok v => cases ht
    | error halt =>
      cases halt with
      | exhausted =>
        cases ht
        exact showsNoOperands_runtime (by simp)
      | raised t' =>
        cases ht
        exact hends
  · exact Or.inr ⟨p, op, v, w, h, h.evaluate_end⟩

end Expr

end LoxCalc
