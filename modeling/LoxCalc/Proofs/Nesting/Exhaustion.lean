import LoxCalc.Nesting

/-!
# Walks within a bound

A bound on the depth of a walk can stop the walk, and it can do nothing else.
`OnlyStops` says this of any answer that depends on a bound: within every bound it is
the answer without one, or it is the special answer of a walk that was stopped; a
greater bound keeps whatever a smaller one let through; and some bound lets everything
through.

`Bounded` is the form in which this is proved of walks.  **It is closed under the two
things that walks are made of**, going one step down (`Bounded.descend`) and going on
with a result (`Bounded.bind`), so each walk only has to be followed once.

`Ends` says what a walk may end in, if it is not stopped; it is closed in the same way.
-/

namespace LoxCalc

def BoundLE : Option Nat → Option Nat → Prop
  | _, none => True
  | none, some _ => False
  | some m, some n => m ≤ n

/-- How an answer may depend on a bound: `stopped` is what it is when the bound is
exceeded. -/
structure OnlyStops {α : Type} (stopped : α → Prop) (answer : Option Nat → α) : Prop where
  /-- Without a bound nothing is stopped. -/
  unbounded : ¬ stopped (answer none)
  /-- A bound does not change an answer except by stopping the walk. -/
  agrees : ∀ n, answer (some n) = answer none ∨ stopped (answer (some n))
  /-- What one bound lets through is the answer within every greater one. -/
  keeps : ∀ m n, m ≤ n → ¬ stopped (answer (some m)) → answer (some n) = answer (some m)
  /-- Some bound lets everything through. -/
  reached : ∃ n, answer (some n) = answer none

/-- One comparison of bounds gives the whole of `OnlyStops`. -/
theorem OnlyStops.of_mono {α : Type} {stopped : α → Prop} {answer : Option Nat → α}
    (unbounded : ¬ stopped (answer none))
    (mono : ∀ m n, BoundLE m n → answer m = answer n ∨ stopped (answer m))
    (reached : ∃ n, answer (some n) = answer none) : OnlyStops stopped answer where
  unbounded := unbounded
  agrees n := mono (some n) none trivial
  keeps m n hmn hm := by
    rcases mono (some m) (some n) hmn with h | h
    · exact h.symm
    · exact absurd h hm
  reached := reached

/-! ### Walks -/

/-- A walk within a bound: it gives what it gives within every greater bound, or it is
exhausted, and within some bound it gives what it gives without one. -/
structure Bounded {ε α : Type} (walk : Option Nat → Except (Halt ε) α) : Prop where
  unbounded : walk none ≠ .error .exhausted
  mono : ∀ m n, BoundLE m n → walk m = walk n ∨ walk m = .error .exhausted
  reached : ∃ n, walk (some n) = walk none

namespace Bounded

variable {ε α β : Type}

theorem onlyStops {walk : Option Nat → Except (Halt ε) α} (h : Bounded walk) :
    OnlyStops (· = .error .exhausted) walk :=
  .of_mono h.unbounded h.mono h.reached

theorem const {x : Except (Halt ε) α} (h : x ≠ .error .exhausted) : Bounded fun _ => x where
  unbounded := h
  mono _ _ _ := Or.inl rfl
  reached := ⟨0, rfl⟩

theorem pure (a : α) : Bounded fun _ => (Pure.pure a : Except (Halt ε) α) :=
  .const fun h => nomatch h

/-- Within every bound above one that lets everything through, everything gets through. -/
theorem eq_of_le {walk : Option Nat → Except (Halt ε) α} (h : Bounded walk) {m n : Nat}
    (hm : walk (some m) = walk none) (hmn : m ≤ n) : walk (some n) = walk none := by
  rcases h.mono (some m) (some n) hmn with heq | hstop
  · rw [← heq, hm]
  · exact absurd (hm.symm.trans hstop) h.unbounded

theorem bind {walk : Option Nat → Except (Halt ε) α} {next : α → Option Nat → Except (Halt ε) β}
    (h : Bounded walk) (hnext : ∀ a, Bounded (next a)) :
    Bounded fun n => walk n >>= fun a => next a n where
  unbounded := by
    show walk none >>= (fun a => next a none) ≠ _
    cases hwalk : walk none with
    | ok a => exact (hnext a).unbounded
    | error halt => exact fun heq => h.unbounded (hwalk.trans (congrArg _ (Except.error.inj heq)))
  mono m n hmn := by
    show walk m >>= (fun a => next a m) = walk n >>= (fun a => next a n) ∨
      walk m >>= (fun a => next a m) = _
    rcases h.mono m n hmn with heq | hstop
    · rw [heq]
      cases walk n with
      | ok a => exact (hnext a).mono m n hmn
      | error halt => exact Or.inl rfl
    · rw [hstop]
      exact Or.inr rfl
  reached := by
    obtain ⟨m, hm⟩ := h.reached
    cases hwalk : walk none with
    | error halt =>
      refine ⟨m, ?_⟩
      rw [hm, hwalk]
      rfl
    | ok a =>
      obtain ⟨k, hk⟩ := (hnext a).reached
      have hboth : walk (some (max m k)) = .ok a :=
        (h.eq_of_le hm (Nat.le_max_left m k)).trans hwalk
      refine ⟨max m k, ?_⟩
      rw [hboth]
      exact (hnext a).eq_of_le hk (Nat.le_max_right m k)

theorem descend_bind {Step : Type} {cost : Step → Nat} (step : Step)
    (inner : Allowance Step → Except (Halt ε) α) (n : Nat) :
    ((Allowance.mk (some n) cost).descend step >>= inner) =
      if cost step ≤ n then inner ⟨some (n - cost step), cost⟩ else .error .exhausted := by
  rw [Allowance.descend, Allowance.enter?]
  by_cases hn : cost step ≤ n
  · simp only [if_pos hn]
    rfl
  · simp only [if_neg hn]
    rfl

theorem descend {Step : Type} {cost : Step → Nat} (step : Step)
    {inner : Allowance Step → Except (Halt ε) α} (h : Bounded fun n => inner ⟨n, cost⟩) :
    Bounded fun n => (Allowance.mk n cost).descend step >>= inner where
  unbounded := h.unbounded
  mono m n hmn := by
    cases m with
    | none =>
      cases n with
      | none => exact Or.inl rfl
      | some n => exact hmn.elim
    | some m =>
      by_cases hm : cost step ≤ m
      · cases n with
        | none =>
          rw [descend_bind, if_pos hm]
          exact h.mono (some (m - cost step)) none trivial
        | some n =>
          have hle : m ≤ n := hmn
          rw [descend_bind, descend_bind, if_pos hm, if_pos (Nat.le_trans hm hle)]
          exact h.mono (some (m - cost step)) (some (n - cost step)) (Nat.sub_le_sub_right hle _)
      · rw [descend_bind, if_neg hm]
        exact Or.inr rfl
  reached := by
    obtain ⟨k, hk⟩ := h.reached
    refine ⟨k + cost step, ?_⟩
    rw [descend_bind, if_pos (Nat.le_add_left _ _), Nat.add_sub_cancel]
    exact hk

end Bounded

/-! ### Ends -/

/-- What a walk may end in: a result with the property `P`, or an error with the
property `Q`. -/
def Ends {ε α : Type} (P : α → Prop) (Q : ε → Prop) : Except (Halt ε) α → Prop
  | .ok a => P a
  | .error (.raised e) => Q e
  | .error .exhausted => True

namespace Ends

variable {ε α β Step : Type} {P : α → Prop} {P' : β → Prop} {Q : ε → Prop}

theorem bind {x : Except (Halt ε) α} {next : α → Except (Halt ε) β} (h : Ends P Q x)
    (hnext : ∀ a, P a → Ends P' Q (next a)) : Ends P' Q (x >>= next) := by
  cases x with
  | ok a => exact hnext a h
  | error halt =>
    cases halt with
    | exhausted => trivial
    | raised e => exact h

theorem descend {a : Allowance Step} {step : Step} {inner : Allowance Step → Except (Halt ε) α}
    (h : ∀ rest, Ends P Q (inner rest)) : Ends P Q (a.descend step >>= inner) := by
  rw [Allowance.descend]
  cases a.enter? step with
  | some rest => exact h rest
  | none => trivial

end Ends

end LoxCalc
