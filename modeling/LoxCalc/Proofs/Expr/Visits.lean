import LoxCalc.Proofs.Expr.Positions
import LoxCalc.Proofs.Nesting.Walks

/-!
# What an evaluation visits

An evaluation goes from a node to its operands, from the left to the right, and of the two
branches of a conditional to one.  `Enters` is one such step and `Reaches` is the way to a
subtree, with the allowance that is left there.  **What is not visited cannot matter**: with
any other tree in its place the evaluation ends in the same way (`eval_replace`).

There are two reasons why a subtree is not visited.  It lies in the branch that a conditional
has passed over (`Unselected`), or it stands to the right of the node at which the evaluation
fails (`FailsAt`).  There is one such node if the evaluation fails at all, and all that is
visited to its left has a value.

* `eval_setOperand`: one operand of a node, from which `eval_replace` follows along a position.
* `exists_failsAt_iff`, `FailsAt.unique`: the node at which an evaluation fails.
* `not_visited_iff`: the reasons why a subtree is not visited.
* `evaluate_unvisited`: the whole account.
-/

namespace LoxCalc

/-! ### One step down -/

theorem Allowance.descend_of_some {Step ε : Type} {a b : Allowance Step} {step : Step}
    (h : a.enter? step = some b) :
    (a.descend step : Except (Halt ε) (Allowance Step)) = .ok b := by
  rw [descend, h]

theorem Allowance.descend_of_none {Step ε : Type} {a : Allowance Step} {step : Step}
    (h : a.enter? step = none) :
    (a.descend step : Except (Halt ε) (Allowance Step)) = .error .exhausted := by
  rw [descend, h]

theorem Allowance.exists_enter_of_raised {Step α ε : Type} {a : Allowance Step} {step : Step}
    {rest : Allowance Step → Except (Halt ε) α} {t : ε}
    (h : a.descend step >>= rest = .error (.raised t)) :
    ∃ b, a.enter? step = some b ∧ rest b = .error (.raised t) := by
  cases hb : a.enter? step with
  | none =>
    rw [descend_of_none hb] at h
    cases h
  | some b =>
    rw [descend_of_some hb] at h
    exact ⟨b, rfl, h⟩

theorem Allowance.descend_bind_congr {Step α ε : Type} {a : Allowance Step} {step : Step}
    {rest rest' : Allowance Step → Except (Halt ε) α}
    (h : ∀ b, a.enter? step = some b → rest b = rest' b) :
    a.descend step >>= rest = a.descend step >>= rest' := by
  cases hb : a.enter? step with
  | none =>
    rw [descend_of_none hb]
    rfl
  | some b =>
    rw [descend_of_some hb]
    exact h b hb

theorem raised_bind_cases {α β ε : Type} {first : Except (Halt ε) α}
    {rest : α → Except (Halt ε) β} {t : ε} (h : first >>= rest = .error (.raised t)) :
    first = .error (.raised t) ∨ ∃ v, first = .ok v ∧ rest v = .error (.raised t) := by
  cases first with
  | error halt =>
    obtain rfl : halt = .raised t := Except.error.inj h
    exact Or.inl rfl
  | ok v => exact Or.inr ⟨v, rfl, h⟩

theorem bind_congr_of_ok {α β ε : Type} {first : Except ε α} {rest rest' : α → Except ε β}
    (h : ∀ v, first = .ok v → rest v = rest' v) : first >>= rest = first >>= rest' := by
  cases first with
  | error halt => rfl
  | ok v => exact h v rfl

theorem Allowance.le_of_enter {Step : Type} {a b : Allowance Step} {step : Step}
    (h : a.enter? step = some b) :
    b.cost = a.cost ∧ BoundLE b.frames a.frames := by
  obtain ⟨frames, cost⟩ := a
  rw [Allowance.enter?] at h
  cases frames with
  | none => cases h; exact ⟨rfl, trivial⟩
  | some n =>
    by_cases hn : cost step ≤ n
    · simp only [if_pos hn] at h
      cases h
      exact ⟨rfl, Nat.sub_le n (cost step)⟩
    · simp only [if_neg hn] at h
      cases h

theorem BoundLE.trans {l m n : Option Nat} (h : BoundLE l m) (h' : BoundLE m n) :
    BoundLE l n := by
  cases n with
  | none => trivial
  | some n =>
    cases m with
    | none => exact h'.elim
    | some m =>
      cases l with
      | none => exact h.elim
      | some l => exact Nat.le_trans h h'

namespace Expr

open Position

/-! ### The way of an evaluation -/

/-- The steps of an evaluation: from a node to the operand with a number, and the allowance
there.  An operand is entered when those before it have their values. -/
inductive Enters (places : Int) :
    Allowance Layer → Expr → Nat → Allowance Layer → Expr → Prop
  | grouping {a b : Allowance Layer} {e : Expr} (hb : a.enter? .grouping = some b) :
      Enters places a (.grouping e) 0 b e
  | unary {a b : Allowance Layer} {op : Token} {e : Expr} (hb : a.enter? .unary = some b) :
      Enters places a (.unary op e) 0 b e
  | left {a b : Allowance Layer} {l r : Expr} {op : Token} (hb : a.enter? .binary = some b) :
      Enters places a (.binary l op r) 0 b l
  | right {a b : Allowance Layer} {l r : Expr} {op : Token} {v : Value}
      (hb : a.enter? .binary = some b) (hl : l.eval places b = .ok v) :
      Enters places a (.binary l op r) 1 b r
  | condition {a b : Allowance Layer} {c t e : Expr} (hb : a.enter? .conditional = some b) :
      Enters places a (.conditional c t e) 0 b c
  | thenBranch {a b : Allowance Layer} {c t e : Expr} {v : Value}
      (hb : a.enter? .conditional = some b) (hc : c.eval places b = .ok v)
      (hv : v.isTruthy = true) : Enters places a (.conditional c t e) 1 b t
  | elseBranch {a b : Allowance Layer} {c t e : Expr} {v : Value}
      (hb : a.enter? .conditional = some b) (hc : c.eval places b = .ok v)
      (hv : v.isTruthy = false) : Enters places a (.conditional c t e) 2 b e

inductive Reaches (places : Int) :
    Allowance Layer → Expr → Position → Allowance Layer → Expr → Prop
  | here {a : Allowance Layer} {e : Expr} : Reaches places a e [] a e
  | step {a b c : Allowance Layer} {e f n : Expr} {i : Nat} {p : Position}
      (h : Enters places a e i b f) (hrest : Reaches places b f p c n) :
      Reaches places a e (i :: p) c n

def Visited (places : Int) (a : Allowance Layer) (e : Expr) (p : Position) : Prop :=
  ∃ b n, Reaches places a e p b n

variable {places : Int} {a b c : Allowance Layer} {e f n : Expr} {i j : Nat} {p q : Position}
  {t : Trouble}

namespace Enters

theorem operand? (h : Enters places a e i b f) : e.operand? i = some f := by
  cases h <;> rfl

/-- There is one way to an operand. -/
theorem unique {b' : Allowance Layer} {f' : Expr} (h : Enters places a e i b f)
    (h' : Enters places a e i b' f') : b = b' ∧ f = f' := by
  have hoperand : f = f' := Option.some.inj (h.operand?.symm.trans h'.operand?)
  have hallowance : ∀ {step : Layer}, a.enter? step = some b → a.enter? step = some b' →
      b = b' := fun hb hb' => Option.some.inj (hb.symm.trans hb')
  refine ⟨?_, hoperand⟩
  cases h <;> cases h' <;> exact hallowance ‹_› ‹_›

/-- **An operand that has no value leaves the node without one.** -/
theorem eval_error (h : Enters places a e i b f) {halt : Halt Trouble}
    (hf : f.eval places b = .error halt) : e.eval places a = .error halt := by
  cases h with
  | grouping hb | unary hb | left hb | condition hb =>
    rw [eval, Allowance.descend_of_some hb]
    simp only [bind, Except.bind, hf]
  | right hb hl =>
    rw [eval, Allowance.descend_of_some hb]
    simp only [bind, Except.bind, hl, hf]
  | thenBranch hb hc hv =>
    rw [eval, Allowance.descend_of_some hb]
    simp only [bind, Except.bind, hc, hv, hf, if_true]
  | elseBranch hb hc hv =>
    rw [eval, Allowance.descend_of_some hb]
    simp only [bind, Except.bind, hc, hv, hf, Bool.false_eq_true, if_false]

theorem value_of_lt {b' : Allowance Layer} {f' : Expr} (h : Enters places a e i b f)
    (h' : Enters places a e j b' f') (hij : i < j) : ∃ v, f.eval places b = .ok v := by
  have hsame : ∀ {g : Expr} {v : Value} {step : Layer}, a.enter? step = some b →
      a.enter? step = some b' → g.eval places b' = .ok v → ∃ v, g.eval places b = .ok v := by
    intro g v step hb hb' hg
    obtain rfl : b = b' := Option.some.inj (hb.symm.trans hb')
    exact ⟨v, hg⟩
  cases h with
  | grouping _ | unary _ =>
    cases h'
    exact absurd hij (by decide)
  | left hb =>
    cases h' with
    | left _ => exact absurd hij (by decide)
    | right hb' hl => exact hsame hb hb' hl
  | right _ _ => cases h' <;> exact absurd hij (by decide)
  | condition hb =>
    cases h' with
    | condition _ => exact absurd hij (by decide)
    | thenBranch hb' hc _ => exact hsame hb hb' hc
    | elseBranch hb' hc _ => exact hsame hb hb' hc
  | thenBranch hb hc hv =>
    cases h' with
    | condition _ | thenBranch _ _ _ => exact absurd hij (by decide)
    | elseBranch hb' hc' hv' =>
      -- only one of the branches is entered
      obtain rfl : b = b' := Option.some.inj (hb.symm.trans hb')
      obtain rfl := Except.ok.inj (hc.symm.trans hc')
      rw [hv] at hv'
      cases hv'
  | elseBranch _ _ _ => cases h' <;> exact absurd hij (by decide)

end Enters

namespace Reaches

theorem append_iff (p : Position) : ∀ {a : Allowance Layer} {e : Expr},
    Reaches places a e (p ++ q) c n ↔
      ∃ b m, Reaches places a e p b m ∧ Reaches places b m q c n := by
  induction p with
  | nil =>
    intro a e
    constructor
    · exact fun h => ⟨a, e, .here, h⟩
    · rintro ⟨b, m, hhere, h⟩
      cases hhere
      exact h
  | cons i p ih =>
    intro a e
    constructor
    · intro h
      cases h with
      | step henter hrest =>
        obtain ⟨b, m, hp, hq⟩ := ih.mp hrest
        exact ⟨b, m, .step henter hp, hq⟩
    · rintro ⟨b, m, hp, hq⟩
      cases hp with
      | step henter hrest => exact .step henter (ih.mpr ⟨b, m, hrest, hq⟩)

theorem unique {b' : Allowance Layer} {n' : Expr} (h : Reaches places a e p b n) :
    Reaches places a e p b' n' → b = b' ∧ n = n' := by
  induction h with
  | here =>
    intro h'
    cases h'
    exact ⟨rfl, rfl⟩
  | step henter _ ih =>
    intro h'
    cases h' with
    | step henter' hrest' =>
      obtain ⟨rfl, rfl⟩ := henter.unique henter'
      exact ih hrest'

theorem at? (h : Reaches places a e p b n) : e.at? p = some n := by
  induction h with
  | here => rfl
  | step henter _ ih => rw [at?_cons henter.operand?, ih]

/-- **What is visited and has no value leaves the whole tree without one.** -/
theorem eval_error (h : Reaches places a e p b n) {halt : Halt Trouble}
    (hn : n.eval places b = .error halt) : e.eval places a = .error halt := by
  induction h with
  | here => exact hn
  | step henter _ ih => exact henter.eval_error (ih hn)

end Reaches

/-! ### Replacing what is not visited -/

/-- **An operand can be replaced** by one of the same end; if it is not entered, by any
other. -/
theorem eval_setOperand {u : Expr} (hf : e.operand? i = some f)
    (h : ∀ b, Enters places a e i b f → u.eval places b = f.eval places b) :
    (e.setOperand i u).eval places a = e.eval places a := by
  unfold operand? at hf
  split at hf <;> cases hf <;> rw [setOperand, eval, eval]
  · exact Allowance.descend_bind_congr fun b hb => h b (.grouping hb)
  · refine Allowance.descend_bind_congr fun b hb => ?_
    rw [h b (.unary hb)]
  · refine Allowance.descend_bind_congr fun b hb => ?_
    rw [h b (.left hb)]
  · refine Allowance.descend_bind_congr fun b hb => bind_congr_of_ok fun v hl => ?_
    rw [h b (.right hb hl)]
  · refine Allowance.descend_bind_congr fun b hb => ?_
    rw [h b (.condition hb)]
  · refine Allowance.descend_bind_congr fun b hb => bind_congr_of_ok fun v hc => ?_
    cases hv : v.isTruthy with
    | false => rfl
    | true => exact h b (.thenBranch hb hc hv)
  · refine Allowance.descend_bind_congr fun b hb => bind_congr_of_ok fun v hc => ?_
    cases hv : v.isTruthy with
    | true => rfl
    | false => exact h b (.elseBranch hb hc hv)

/-- **What is not visited can be replaced** by anything. -/
theorem eval_replace : ∀ {p : Position} {a : Allowance Layer} {e : Expr},
    ¬ Visited places a e p → ∀ u : Expr, (e.replace p u).eval places a = e.eval places a := by
  intro p
  induction p with
  | nil => exact fun h => absurd ⟨_, _, .here⟩ h
  | cons i p ih =>
    intro a e h u
    rw [replace]
    cases hf : e.operand? i with
    | none => rfl
    | some f =>
      refine eval_setOperand hf fun b hb => ih (fun ⟨c, n, hreaches⟩ => ?_) u
      exact h ⟨c, n, .step hb hreaches⟩

theorem Enters.setOperand (h : Enters places a e i b f) (u : Expr) :
    Enters places a (e.setOperand i u) i b u := by
  cases h with
  | grouping hb => exact .grouping hb
  | unary hb => exact .unary hb
  | left hb => exact .left hb
  | right hb hl => exact .right hb hl
  | condition hb => exact .condition hb
  | thenBranch hb hc hv => exact .thenBranch hb hc hv
  | elseBranch hb hc hv => exact .elseBranch hb hc hv

theorem Reaches.replace (h : Reaches places a e p b n) (u : Expr) :
    Reaches places a (e.replace p u) p b u := by
  induction h with
  | here => exact .here
  | step henter _ ih =>
    rw [Expr.replace, henter.operand?]
    exact .step (henter.setOperand _) ih

/-- **What is visited matters**: nothing in its place, or a token, ends the evaluation with
the fault of that very thing. -/
theorem eval_replace_visited (h : Visited places a e p) :
    (e.replace p .absent).eval places a =
        .error (.raised (.fault (.unhandledNode "NoneType"))) ∧
      ∀ token, (e.replace p (.bare token)).eval places a =
        .error (.raised (.fault (.unhandledNode "Token"))) := by
  obtain ⟨b, n, hreaches⟩ := h
  exact ⟨(hreaches.replace _).eval_error rfl, fun token => (hreaches.replace _).eval_error rfl⟩

/-! ### The node at which an evaluation fails -/

/-- Whether the evaluation of a node fails at the node itself: its operands have values and
its operator does not accept them, or it is no expression. -/
inductive Fails (places : Int) : Allowance Layer → Expr → Trouble → Prop
  | unary {a b : Allowance Layer} {op : Token} {e : Expr} {v : Value} {t : Trouble}
      (hb : a.enter? .unary = some b) (he : e.eval places b = .ok v)
      (ht : applyUnary op v = .error t) : Fails places a (.unary op e) t
  | binary {a b : Allowance Layer} {op : Token} {l r : Expr} {v w : Value} {t : Trouble}
      (hb : a.enter? .binary = some b) (hl : l.eval places b = .ok v)
      (hr : r.eval places b = .ok w) (ht : applyBinary places op v w = .error t) :
      Fails places a (.binary l op r) t
  | absent {a : Allowance Layer} : Fails places a .absent (.fault (.unhandledNode "NoneType"))
  | bare {a : Allowance Layer} {op : Token} :
      Fails places a (.bare op) (.fault (.unhandledNode "Token"))

def FailsAt (places : Int) (a : Allowance Layer) (e : Expr) (p : Position) (t : Trouble) : Prop :=
  ∃ b n, Reaches places a e p b n ∧ Fails places b n t

namespace Fails

theorem eval_eq (h : Fails places a e t) : e.eval places a = .error (.raised t) := by
  cases h with
  | unary hb he ht =>
    rw [eval, Allowance.descend_of_some hb]
    simp only [bind, Except.bind, he, ht, ofOutcome]
  | binary hb hl hr ht =>
    rw [eval, Allowance.descend_of_some hb]
    simp only [bind, Except.bind, hl, hr, ht, ofOutcome]
  | absent | bare => rfl

theorem value_of_enters (h : Fails places a e t) (henter : Enters places a e i b f) :
    ∃ v, f.eval places b = .ok v := by
  have hsame : ∀ {b' : Allowance Layer} {g : Expr} {v : Value} {step : Layer},
      a.enter? step = some b' → a.enter? step = some b → g.eval places b' = .ok v →
        ∃ v, g.eval places b = .ok v := by
    intro b' g v step hb' hb hg
    obtain rfl : b' = b := Option.some.inj (hb'.symm.trans hb)
    exact ⟨v, hg⟩
  cases h with
  | unary hb' he ht => cases henter with | unary hb => exact hsame hb' hb he
  | binary hb' hl hr ht =>
    cases henter with
    | left hb => exact hsame hb' hb hl
    | right hb _ => exact hsame hb' hb hr
  | absent | bare => cases henter

end Fails

theorem eq_error_of_ofOutcome {o : Outcome} (h : ofOutcome o = .error (.raised t)) :
    o = .error t := by
  cases o with
  | ok v => cases h
  | error t' =>
    cases h
    rfl

theorem raised_cases (h : e.eval places a = .error (.raised t)) :
    Fails places a e t ∨
      ∃ i b f, Enters places a e i b f ∧ f.eval places b = .error (.raised t) := by
  cases e with
  | literal v => cases h
  | absent => cases h; exact Or.inl .absent
  | bare op => cases h; exact Or.inl .bare
  | grouping e =>
    rw [eval] at h
    obtain ⟨b, hb, he⟩ := Allowance.exists_enter_of_raised h
    exact Or.inr ⟨0, b, e, .grouping hb, he⟩
  | unary op e =>
    rw [eval] at h
    obtain ⟨b, hb, h⟩ := Allowance.exists_enter_of_raised h
    obtain he | ⟨v, hv, ht⟩ := raised_bind_cases h
    · exact Or.inr ⟨0, b, e, .unary hb, he⟩
    · exact Or.inl (.unary hb hv (eq_error_of_ofOutcome ht))
  | binary l op r =>
    rw [eval] at h
    obtain ⟨b, hb, h⟩ := Allowance.exists_enter_of_raised h
    obtain hl | ⟨v, hv, h⟩ := raised_bind_cases h
    · exact Or.inr ⟨0, b, l, .left hb, hl⟩
    obtain hr | ⟨w, hw, ht⟩ := raised_bind_cases h
    · exact Or.inr ⟨1, b, r, .right hb hv, hr⟩
    · exact Or.inl (.binary hb hv hw (eq_error_of_ofOutcome ht))
  | conditional c thenBranch elseBranch =>
    rw [eval] at h
    obtain ⟨b, hb, h⟩ := Allowance.exists_enter_of_raised h
    obtain hc | ⟨v, hv, h⟩ := raised_bind_cases h
    · exact Or.inr ⟨0, b, c, .condition hb, hc⟩
    cases htruthy : v.isTruthy with
    | true =>
      rw [if_pos htruthy] at h
      exact Or.inr ⟨1, b, thenBranch, .thenBranch hb hv htruthy, h⟩
    | false =>
      rw [htruthy, if_neg Bool.false_ne_true] at h
      exact Or.inr ⟨2, b, elseBranch, .elseBranch hb hv htruthy, h⟩

namespace FailsAt

theorem step (henter : Enters places a e i b f) (h : FailsAt places b f p t) :
    FailsAt places a e (i :: p) t := by
  obtain ⟨c, n, hreaches, hfails⟩ := h
  exact ⟨c, n, .step henter hreaches, hfails⟩

theorem eval_eq (h : FailsAt places a e p t) : e.eval places a = .error (.raised t) := by
  obtain ⟨b, n, hreaches, hfails⟩ := h
  exact hreaches.eval_error hfails.eval_eq

/-- A node that fails itself is where the evaluation stops: nothing below it fails. -/
theorem not_below (h : FailsAt places a e p t) {t' : Trouble} :
    ¬ FailsAt places a e (p ++ i :: q) t' := by
  obtain ⟨b, n, hreaches, hfails⟩ := h
  rintro ⟨c, m, hbelow, hfails'⟩
  obtain ⟨b', n', hp, hrest⟩ := (Reaches.append_iff p).mp hbelow
  obtain ⟨rfl, rfl⟩ := hreaches.unique hp
  cases hrest with
  | step henter hrest =>
    obtain ⟨v, hv⟩ := hfails.value_of_enters henter
    rw [hrest.eval_error hfails'.eval_eq] at hv
    cases hv

/-- **Nothing to the right of a failure is visited.** -/
theorem not_visited_of_later (h : FailsAt places a e p t) (hlater : Later p q) :
    ¬ Visited places a e q := by
  obtain ⟨common, i, j, p', q', rfl, rfl, hij⟩ := hlater
  obtain ⟨b, n, hreaches, hfails⟩ := h
  rintro ⟨c, m, hvisited⟩
  obtain ⟨d, k, hcommon, hleft⟩ := (Reaches.append_iff common).mp hreaches
  obtain ⟨d', k', hcommon', hright⟩ := (Reaches.append_iff common).mp hvisited
  obtain ⟨rfl, rfl⟩ := hcommon.unique hcommon'
  cases hleft with
  | step henter hrest =>
    cases hright with
    | step henter' _ =>
      obtain ⟨v, hv⟩ := henter.value_of_lt henter' hij
      rw [hrest.eval_error hfails.eval_eq] at hv
      cases hv

/-- **An evaluation fails at one node only.** -/
theorem unique {t' : Trouble} (h : FailsAt places a e p t) (h' : FailsAt places a e q t') :
    p = q := by
  have hvisited : Visited places a e p := by
    obtain ⟨b, n, hreaches, -⟩ := h
    exact ⟨b, n, hreaches⟩
  have hvisited' : Visited places a e q := by
    obtain ⟨b, n, hreaches, -⟩ := h'
    exact ⟨b, n, hreaches⟩
  rcases p.compare q with ⟨rest, rfl⟩ | ⟨rest, rfl⟩ | hlater | hlater
  · cases rest with
    | nil => rw [List.append_nil]
    | cons i rest => exact absurd h' h.not_below
  · cases rest with
    | nil => rw [List.append_nil]
    | cons i rest => exact absurd h h'.not_below
  · exact absurd hvisited' (h.not_visited_of_later hlater)
  · exact absurd hvisited (h'.not_visited_of_later hlater)

end FailsAt

/-- **An evaluation that fails does so at some node.** -/
theorem exists_failsAt_iff {t : Trouble} : ∀ {e : Expr} {a : Allowance Layer},
    (∃ p, FailsAt places a e p t) ↔ e.eval places a = .error (.raised t) := by
  intro e a
  constructor
  · rintro ⟨p, h⟩
    exact h.eval_eq
  intro h
  induction e generalizing a with
  | literal v => cases h
  | absent => cases h; exact ⟨[], a, _, .here, .absent⟩
  | bare op => cases h; exact ⟨[], a, _, .here, .bare⟩
  | grouping e ih =>
    obtain hfails | ⟨i, b, f, henter, hf⟩ := raised_cases h
    · exact ⟨[], a, _, .here, hfails⟩
    · cases henter with
      | grouping hb => exact (ih hf).imp' _ fun p hp => hp.step (.grouping hb)
  | unary op e ih =>
    obtain hfails | ⟨i, b, f, henter, hf⟩ := raised_cases h
    · exact ⟨[], a, _, .here, hfails⟩
    · cases henter with
      | unary hb => exact (ih hf).imp' _ fun p hp => hp.step (.unary hb)
  | binary l op r ihl ihr =>
    obtain hfails | ⟨i, b, f, henter, hf⟩ := raised_cases h
    · exact ⟨[], a, _, .here, hfails⟩
    · cases henter with
      | left hb => exact (ihl hf).imp' _ fun p hp => hp.step (.left hb)
      | right hb hl => exact (ihr hf).imp' _ fun p hp => hp.step (.right hb hl)
  | conditional c t e ihc iht ihe =>
    obtain hfails | ⟨i, b, f, henter, hf⟩ := raised_cases h
    · exact ⟨[], a, _, .here, hfails⟩
    · cases henter with
      | condition hb => exact (ihc hf).imp' _ fun p hp => hp.step (.condition hb)
      | thenBranch hb hc hv => exact (iht hf).imp' _ fun p hp => hp.step (.thenBranch hb hc hv)
      | elseBranch hb hc hv => exact (ihe hf).imp' _ fun p hp => hp.step (.elseBranch hb hc hv)

/-! ### Why a subtree is not visited -/

inductive PassesOver (places : Int) : Allowance Layer → Expr → Nat → Prop
  | elseBranch {a b : Allowance Layer} {c t e : Expr} {v : Value}
      (hb : a.enter? .conditional = some b) (hc : c.eval places b = .ok v)
      (hv : v.isTruthy = true) : PassesOver places a (.conditional c t e) 2
  | thenBranch {a b : Allowance Layer} {c t e : Expr} {v : Value}
      (hb : a.enter? .conditional = some b) (hc : c.eval places b = .ok v)
      (hv : v.isTruthy = false) : PassesOver places a (.conditional c t e) 1

/-- Whether a position lies in the unselected branch of a conditional that is visited. -/
def Unselected (places : Int) (a : Allowance Layer) (e : Expr) (p : Position) : Prop :=
  ∃ (q : Position) (i : Nat) (rest : Position) (b : Allowance Layer) (n : Expr),
    p = q ++ i :: rest ∧ Reaches places a e q b n ∧ PassesOver places b n i

/-- Whether a position lies to the right of the node at which the evaluation fails. -/
def AfterFailure (places : Int) (a : Allowance Layer) (e : Expr) (p : Position) : Prop :=
  ∃ f t, FailsAt places a e f t ∧ Later f p

theorem PassesOver.not_enters (h : PassesOver places a e i) : ¬ Enters places a e i b f := by
  intro henter
  have hsame : ∀ {b' : Allowance Layer} {c : Expr} {v w : Value} {step : Layer},
      a.enter? step = some b' → a.enter? step = some b → c.eval places b' = .ok v →
        c.eval places b = .ok w → v = w := by
    intro b' c v w step hb' hb hv hw
    obtain rfl : b' = b := Option.some.inj (hb'.symm.trans hb)
    exact Except.ok.inj (hv.symm.trans hw)
  cases h with
  | elseBranch hb hc hv =>
    cases henter with
    | elseBranch hb' hc' hv' =>
      rw [hsame hb hb' hc hc', hv'] at hv
      cases hv
  | thenBranch hb hc hv =>
    cases henter with
    | thenBranch hb' hc' hv' =>
      rw [hsame hb hb' hc hc', hv'] at hv
      cases hv

theorem Unselected.not_visited (h : Unselected places a e p) : ¬ Visited places a e p := by
  obtain ⟨q, i, rest, b, n, rfl, hreaches, hpasses⟩ := h
  rintro ⟨c, m, hvisited⟩
  obtain ⟨b', n', hq, hrest⟩ := (Reaches.append_iff q).mp hvisited
  obtain ⟨rfl, rfl⟩ := hreaches.unique hq
  cases hrest with
  | step henter _ => exact hpasses.not_enters henter

/-- **An operand is entered**, or it is passed over, or one to its left fails. -/
theorem enters_or (hf : e.operand? i = some f) (hdeep : e.eval places a ≠ .error .exhausted) :
    (∃ b, Enters places a e i b f) ∨ PassesOver places a e i ∨
      ∃ j < i, ∃ b g t, Enters places a e j b g ∧ g.eval places b = .error (.raised t) := by
  have hdescend : ∀ {step : Layer} {inner : Allowance Layer → Except (Halt Trouble) Value},
      a.descend step >>= inner ≠ .error .exhausted → ∃ b, a.enter? step = some b := by
    intro step inner hne
    cases hb : a.enter? step with
    | none => rw [Allowance.descend_of_none hb] at hne; exact absurd rfl hne
    | some b => exact ⟨b, rfl⟩
  -- an operand to the left has a value, or it is where the evaluation fails
  have hleft : ∀ {j : Nat} {b : Allowance Layer} {g : Expr}, Enters places a e j b g →
      (∃ v, g.eval places b = .ok v) ∨ ∃ t, g.eval places b = .error (.raised t) := by
    intro j b g henter
    cases hg : g.eval places b with
    | ok v => exact Or.inl ⟨v, rfl⟩
    | error halt =>
      cases halt with
      | exhausted => exact absurd (henter.eval_error hg) hdeep
      | raised t => exact Or.inr ⟨t, rfl⟩
  unfold operand? at hf
  split at hf <;> cases hf
  · obtain ⟨b, hb⟩ := hdescend hdeep
    exact Or.inl ⟨b, .grouping hb⟩
  · obtain ⟨b, hb⟩ := hdescend hdeep
    exact Or.inl ⟨b, .unary hb⟩
  · obtain ⟨b, hb⟩ := hdescend hdeep
    exact Or.inl ⟨b, .left hb⟩
  · obtain ⟨b, hb⟩ := hdescend hdeep
    rcases hleft (.left hb) with ⟨v, hv⟩ | ⟨t, ht⟩
    · exact Or.inl ⟨b, .right hb hv⟩
    · exact Or.inr (Or.inr ⟨0, by decide, b, _, t, .left hb, ht⟩)
  · obtain ⟨b, hb⟩ := hdescend hdeep
    exact Or.inl ⟨b, .condition hb⟩
  · obtain ⟨b, hb⟩ := hdescend hdeep
    rcases hleft (.condition hb) with ⟨v, hv⟩ | ⟨t, ht⟩
    · cases htruthy : v.isTruthy with
      | true => exact Or.inl ⟨b, .thenBranch hb hv htruthy⟩
      | false => exact Or.inr (Or.inl (.thenBranch hb hv htruthy))
    · exact Or.inr (Or.inr ⟨0, by decide, b, _, t, .condition hb, ht⟩)
  · obtain ⟨b, hb⟩ := hdescend hdeep
    rcases hleft (.condition hb) with ⟨v, hv⟩ | ⟨t, ht⟩
    · cases htruthy : v.isTruthy with
      | true => exact Or.inr (Or.inl (.elseBranch hb hv htruthy))
      | false => exact Or.inl ⟨b, .elseBranch hb hv htruthy⟩
    · exact Or.inr (Or.inr ⟨0, by decide, b, _, t, .condition hb, ht⟩)

/-- **A subtree is not visited** exactly if it lies in an unselected branch or to the right of
a failure. -/
theorem not_visited_iff : ∀ {p : Position} {a : Allowance Layer} {e n : Expr},
    e.at? p = some n → e.eval places a ≠ .error .exhausted →
      (¬ Visited places a e p ↔ Unselected places a e p ∨ AfterFailure places a e p) := by
  intro p a e n hn hdeep
  constructor
  case mpr =>
    rintro (hunselected | ⟨f, t, hfails, hlater⟩)
    · exact hunselected.not_visited
    · exact hfails.not_visited_of_later hlater
  intro h
  induction p generalizing a e with
  | nil => exact absurd ⟨a, e, .here⟩ h
  | cons i p ih =>
    obtain ⟨f, hf, hn⟩ := exists_operand_of_at? hn
    obtain ⟨b, henter⟩ | hpasses | ⟨j, hj, b, g, t, henter, hg⟩ := enters_or hf hdeep
    · -- the reason lies further down
      have hrest : ¬ Visited places b f p := by
        rintro ⟨c, m, hreaches⟩
        exact h ⟨c, m, .step henter hreaches⟩
      have hdeep' : f.eval places b ≠ .error .exhausted :=
        fun hexhausted => hdeep (henter.eval_error hexhausted)
      rcases ih hn hdeep' hrest with ⟨q, k, rest, c, m, rfl, hq, hpasses⟩ | ⟨q, t, hfails, hlater⟩
      · exact Or.inl ⟨i :: q, k, rest, c, m, rfl, .step henter hq, hpasses⟩
      · exact Or.inr ⟨i :: q, t, hfails.step henter, hlater.cons i⟩
    · exact Or.inl ⟨[], i, p, a, e, rfl, .here, hpasses⟩
    · obtain ⟨q, hq⟩ := exists_failsAt_iff.mpr hg
      exact Or.inr ⟨j :: q, t, hq.step henter, later_of_lt hj q p⟩

/-! ### Evaluations -/

theorem Reaches.le (h : Reaches places a e p b n) :
    b.cost = a.cost ∧ BoundLE b.frames a.frames := by
  induction h with
  | @here a e =>
    refine ⟨rfl, ?_⟩
    cases a.frames with
    | none => trivial
    | some n => exact Nat.le_refl n
  | step henter _ ih =>
    have hone := by cases henter <;> exact Allowance.le_of_enter ‹_›
    exact ⟨ih.1.trans hone.1, BoundLE.trans ih.2 hone.2⟩

theorem evaluate_eq_error_iff (hdeep : e.eval places a ≠ .error .exhausted) :
    e.evaluate a places = .error t ↔ e.eval places a = .error (.raised t) := by
  rw [evaluate]
  cases heval : e.eval places a with
  | ok v => simp
  | error halt =>
    cases halt with
    | exhausted => exact absurd heval hdeep
    | raised t' => simp

theorem eval_ne_exhausted (h : ¬ StoppedEvaluation (e.evaluate a places)) :
    e.eval places a ≠ .error .exhausted := by
  intro heval
  exact h ⟨e.anchor, by rw [evaluate, heval]⟩

/-- **An error of what is visited surfaces**, as it is when the subtree is evaluated on its
own. -/
theorem Reaches.evaluate_eq_error (h : Reaches places a e p b n)
    (hdeep : e.eval places a ≠ .error .exhausted) (hn : n.evaluate a places = .error t) :
    e.evaluate a places = .error t := by
  obtain ⟨hcost, hle⟩ := h.le
  have hvisited : n.eval places b ≠ .error .exhausted := fun hn => hdeep (h.eval_error hn)
  have hsame : n.eval places b = n.eval places a := by
    obtain ⟨frames, cost⟩ := a
    obtain ⟨frames', cost'⟩ := b
    obtain rfl : cost' = cost := hcost
    exact ((bounded_eval cost' places n).mono frames' frames hle).resolve_right hvisited
  rw [hsame] at hvisited
  rw [evaluate_eq_error_iff hvisited, ← hsame] at hn
  rw [evaluate_eq_error_iff hdeep]
  exact h.eval_error hn

theorem Visited.left {l r : Expr} {op : Token} (h : Visited places a e q)
    (hq : e.at? q = some (.binary l op r)) (hdeep : e.eval places a ≠ .error .exhausted) :
    Visited places a e (q ++ [0]) := by
  obtain ⟨b, n, hreaches⟩ := h
  obtain rfl : n = .binary l op r := Option.some.inj (hreaches.at?.symm.trans hq)
  have hnode : (Expr.binary l op r).eval places b ≠ .error .exhausted :=
    fun hexhausted => hdeep (hreaches.eval_error hexhausted)
  obtain ⟨c, henter⟩ | hpasses | ⟨j, hj, -⟩ := enters_or (i := 0) rfl hnode
  · exact ⟨c, l, (Reaches.append_iff q).mpr ⟨b, _, hreaches, .step henter .here⟩⟩
  · nomatch hpasses
  · exact absurd hj (Nat.not_lt_zero j)

/-- Whether an evaluation ends in the same way with anything else at a position. -/
def Irrelevant (places : Int) (a : Allowance Layer) (e : Expr) (p : Position) : Prop :=
  ∀ u : Expr, (e.replace p u).evaluate a places = e.evaluate a places

theorem irrelevant_iff (hdeep : e.eval places a ≠ .error .exhausted) :
    Irrelevant places a e p ↔ ¬ Visited places a e p := by
  constructor
  · intro h hvisited
    obtain ⟨habsent, hbare⟩ := eval_replace_visited hvisited
    -- two things that end the evaluation in two ways cannot both end it as the tree does
    have hsame := (h .absent).trans (h (.bare (.endOfInput 1))).symm
    simp [evaluate, habsent, hbare] at hsame
  · intro h u
    have heval := eval_replace h u
    rw [evaluate, heval, evaluate]
    cases hresult : e.eval places a with
    | ok v => rfl
    | error halt =>
      cases halt with
      | raised t => rfl
      | exhausted => exact absurd hresult hdeep

/-- **What an evaluation does not visit cannot matter.**  If a tree is not too deep for its
evaluation, then a subtree can be replaced by anything at all exactly if it is not visited,
and it is not visited exactly if it lies in the branch that a visited conditional passes over
or to the right of the node at which the evaluation fails.  There is one such node if the
evaluation has no value, and none if it has one.  In particular the left operand of an
operator that is visited is visited, also of a comma, which discards it; so its error is the
error of the whole. -/
theorem evaluate_unvisited (e : Expr) (a : Allowance Layer) (places : Int)
    (hdeep : ¬ StoppedEvaluation (e.evaluate a places)) :
    (∀ p n, e.at? p = some n →
      (Irrelevant places a e p ↔ ¬ Visited places a e p) ∧
      (¬ Visited places a e p ↔ Unselected places a e p ∨ AfterFailure places a e p)) ∧
    (∀ t, e.evaluate a places = .error t ↔ ∃ f, FailsAt places a e f t) ∧
    (∀ f f' t t', FailsAt places a e f t → FailsAt places a e f' t' → f = f' ∧ t = t') ∧
    ∀ q l op r, e.at? q = some (.binary l op r) → Visited places a e q →
      Visited places a e (q ++ [0]) ∧
      ∀ t, l.evaluate a places = .error t → e.evaluate a places = .error t := by
  have hdeep := eval_ne_exhausted hdeep
  refine ⟨fun p n hn => ⟨irrelevant_iff hdeep, not_visited_iff hn hdeep⟩, fun t => ?_,
    fun f f' t t' h h' => ⟨h.unique h', ?_⟩, fun q l op r hq hvisited => ?_⟩
  · rw [evaluate_eq_error_iff hdeep, exists_failsAt_iff]
  · have hsame := h.eval_eq.symm.trans h'.eval_eq
    simpa using hsame
  · have hleft := hvisited.left hq hdeep
    refine ⟨hleft, fun t ht => ?_⟩
    obtain ⟨b, n, hreaches⟩ := hleft
    have hn : n = l := by
      have hat := hreaches.at?
      rw [at?_append hq, at?_cons rfl, at?] at hat
      exact (Option.some.inj hat).symm
    exact hreaches.evaluate_eq_error hdeep (hn ▸ ht)

/-- The tree `(nil ? _ : -nil), _` with nothing at the two places: one of them is the
branch that is passed over, the other one stands behind the failure. -/
def failureBeforeComma : Expr :=
  .binary (.conditional (.literal .nil) .absent (.unary (.operator .minus 1) (.literal .nil)))
    (.operator .comma 1) .absent

theorem evaluate_unvisited_failureBeforeComma :
    ¬ StoppedEvaluation (failureBeforeComma.evaluate Limits.standard.evaluating 6) ∧
      Irrelevant 6 Limits.standard.evaluating failureBeforeComma [0, 1] ∧
      Irrelevant 6 Limits.standard.evaluating failureBeforeComma [1] := by
  have houtcome : failureBeforeComma.evaluate Limits.standard.evaluating 6 =
      .error (.runtime ⟨.operator .minus 1, .operandNotNumber⟩) := by rfl
  have hdeep : ¬ StoppedEvaluation
      (failureBeforeComma.evaluate Limits.standard.evaluating 6) := by
    rintro ⟨token, htoken⟩
    rw [houtcome] at htoken
    exact absurd htoken (by simp)
  obtain ⟨hunvisited, -⟩ := evaluate_unvisited failureBeforeComma _ 6 hdeep
  have hcondition : Reaches 6 Limits.standard.evaluating failureBeforeComma [0] _ _ :=
    .step (.left rfl) .here
  have hunselected : Unselected 6 Limits.standard.evaluating failureBeforeComma [0, 1] :=
    ⟨[0], 1, [], _, _, rfl, hcondition, .thenBranch rfl rfl rfl⟩
  have hafter : AfterFailure 6 Limits.standard.evaluating failureBeforeComma [1] :=
    ⟨[0, 2], _, ⟨_, _, .step (.left rfl) (.step (.elseBranch rfl rfl rfl) .here),
      .unary rfl rfl rfl⟩, later_of_lt (by decide) [2] []⟩
  obtain ⟨hbranch, hbranch'⟩ := hunvisited [0, 1] .absent rfl
  obtain ⟨hright, hright'⟩ := hunvisited [1] .absent rfl
  exact ⟨hdeep, hbranch.mpr (hbranch'.mpr (Or.inl hunselected)),
    hright.mpr (hright'.mpr (Or.inr hafter))⟩

end Expr

end LoxCalc
