/-!
# Nesting

Parsing, evaluating and printing walk trees that a program may nest as deeply
as it likes, and each of these walks has to end at some depth.  An `Allowance`
says at which: it has a number of *frames*, and each kind of step down takes a
number of them.  Without a number of frames there is no bound.

A walk that runs out is `exhausted`.  This is kept apart from whatever else may
stop a walk, for it says nothing about the tree but its depth.
-/

namespace LoxCalc

/-- A bound on the depth of a walk with the steps `Step`. -/
structure Allowance (Step : Type) where
  /-- The frames that are left, or no bound. -/
  frames : Option Nat
  /-- The frames that a step takes. -/
  cost : Step → Nat

namespace Allowance

variable {Step : Type}

def unbounded (a : Allowance Step) : Allowance Step :=
  { a with frames := none }

/-- Whether `spent` frames are within the bound. -/
def covers (a : Allowance Step) (spent : Nat) : Bool :=
  match a.frames with
  | none => true
  | some n => spent ≤ n

/-- What is left after a step, or nothing if it takes more than there is. -/
def enter? (a : Allowance Step) (step : Step) : Option (Allowance Step) :=
  match a.frames with
  | none => some a
  | some n => if a.cost step ≤ n then some { a with frames := some (n - a.cost step) } else none

end Allowance

inductive Halt (ε : Type) where
  /-- The walk went deeper than it may. -/
  | exhausted
  /-- Something else stopped the walk first. -/
  | raised (e : ε)
  deriving DecidableEq, Repr

def Allowance.descend {Step ε : Type} (a : Allowance Step) (step : Step) :
    Except (Halt ε) (Allowance Step) :=
  match a.enter? step with
  | some rest => .ok rest
  | none => .error .exhausted

end LoxCalc
