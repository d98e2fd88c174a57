import LoxCalc.Proofs.Parser.Reading

/-!
# Runs of a parse

`Phase.run` takes a phase through tokens until one is refused, without regard to
how deep the stack becomes.  `Phase.peak` is the depth that the stack reaches on
the way, so `a.covers` of it says that the tokens are not nested too deeply.

Within that bound, `read` is a run: **`read_stops`** says where it stops, in which
phase, and what comes of it.  All that is said about parsers elsewhere goes back
to it.

An error is reported while all that waits is still open, which may go deeper
still: `Phase.peakWithReport` counts the report in.  A bound between the two
lets the tokens be read and breaks the report off (`brokenOff_read`).
-/

namespace LoxCalc

namespace Allowance

variable {Step : Type}

theorem covers_of_le {a : Allowance Step} {m n : Nat} (h : a.covers n = true) (hmn : m ≤ n) :
    a.covers m = true := by
  obtain ⟨frames, cost⟩ := a
  cases frames with
  | none => rfl
  | some f => exact decide_eq_true (Nat.le_trans hmn (of_decide_eq_true h))

theorem covers_zero (a : Allowance Step) : a.covers 0 = true := by
  obtain ⟨frames, cost⟩ := a
  cases frames with
  | none => rfl
  | some f => exact decide_eq_true (Nat.zero_le f)

theorem covers_max (a : Allowance Step) (m n : Nat) :
    a.covers (max m n) = (a.covers m && a.covers n) := by
  obtain ⟨frames, cost⟩ := a
  cases frames with
  | none => rfl
  | some f => exact (decide_eq_decide.mpr Nat.max_le).trans (Bool.decide_and _ _)

end Allowance

namespace Parser

/-- The depth that the stack reaches while tokens are read. -/
def Phase.peak (cost : Opening → Nat) : Phase → List Token → Nat
  | _, [] => 0
  | p, t :: ts =>
    match p.step t with
    | .ok q => max (depth cost q.stack) (q.peak cost ts)
    | .error _ => 0

def nesting (cost : Opening → Nat) (tokens : List Token) : Nat :=
  Phase.initial.peak cost tokens

/-- The depth that is reached while tokens are read and their error is reported. -/
def Phase.peakWithReport (cost : Opening → Nat) : Phase → List Token → Nat
  | p, [] =>
    match p.finish with
    | .ok _ => 0
    | .error cause => p.reportDepth cost cause
  | p, t :: ts =>
    match p.step t with
    | .ok q => max (depth cost q.stack) (q.peakWithReport cost ts)
    | .error cause => p.reportDepth cost cause

def nestingWithReport (cost : Opening → Nat) (tokens : List Token) : Nat :=
  Phase.initial.peakWithReport cost tokens

namespace Phase

/-- The phase after tokens, or what the first one is refused for that is. -/
def run : Phase → List Token → Except SyntaxError.Cause Phase
  | p, [] => .ok p
  | p, t :: ts =>
    match p.step t with
    | .ok q => q.run ts
    | .error cause => .error cause

theorem run_cons {p q : Phase} {t : Token} (h : p.step t = .ok q) (ts : List Token) :
    p.run (t :: ts) = q.run ts := by
  rw [run, h]

theorem run_append {xs : List Token} : ∀ {p q : Phase}, p.run xs = .ok q → ∀ ys : List Token,
    p.run (xs ++ ys) = q.run ys := by
  induction xs with
  | nil =>
    intro p q h ys
    obtain rfl : p = q := Except.ok.inj h
    rfl
  | cons t ts ih =>
    intro p q h ys
    rw [run] at h
    split at h
    · rename_i next hstep
      rw [List.cons_append, run_cons hstep, ih h]
    · exact absurd h (by simp)

theorem run_append_error {p q : Phase} {xs : List Token} (h : p.run xs = .ok q) {t : Token}
    {cause : SyntaxError.Cause} (hstep : q.step t = .error cause) (ys : List Token) :
    p.run (xs ++ t :: ys) = .error cause := by
  rw [run_append h, run, hstep]

/-- **What every step preserves holds after a run.** -/
theorem run_induction {P : Phase → List Token → Prop} {p : Phase} (start : P p [])
    (step : ∀ q xs t next, P q xs → q.step t = .ok next → P next (xs ++ [t])) :
    ∀ {xs : List Token} {q : Phase}, p.run xs = .ok q → P q xs := by
  have go : ∀ (xs done : List Token) (r q : Phase), P r done → r.run xs = .ok q →
      P q (done ++ xs) := by
    intro xs
    induction xs with
    | nil =>
      intro done r q hr h
      obtain rfl : r = q := Except.ok.inj h
      rwa [List.append_nil]
    | cons t ts ih =>
      intro done r q hr h
      rw [run] at h
      split at h
      · rename_i next hstep
        have := ih (done ++ [t]) next q (step r done t next hr hstep) h
        rwa [List.append_assoc] at this
      · exact absurd h (by simp)
  intro xs q h
  exact go xs [] p q start h

end Phase

theorem stopAt_count (a : Allowance Opening) (p : Phase) (stop : Except SyntaxError.Cause Expr) :
    (stopAt a p stop).count = 0 := by
  cases stop with
  | ok tree => rfl
  | error cause =>
    rw [stopAt]
    split <;> rfl

/-- **Where reading stops.**  The tokens before the stop have been read; the token
at the stop is refused, or there is none and the parse is finished. -/
theorem read_stops {a : Allowance Opening} : ∀ {tokens : List Token} {p : Phase},
    a.covers (p.peak a.cost tokens) = true →
      (read a p tokens).count ≤ tokens.length ∧
        ∃ q stop, p.run (tokens.take (read a p tokens).count) = .ok q ∧
          (read a p tokens).result = (stopAt a q stop).result ∧
          ((∃ t cause, tokens[(read a p tokens).count]? = some t ∧ q.step t = .error cause ∧
              stop = .error cause) ∨
            ((read a p tokens).count = tokens.length ∧ stop = q.finish)) := by
  intro tokens
  induction tokens with
  | nil =>
    intro p _
    rw [show (read a p []).count = 0 from stopAt_count a p p.finish]
    exact ⟨Nat.le_refl _, p, p.finish, rfl, rfl, Or.inr ⟨rfl, rfl⟩⟩
  | cons t ts ih =>
    intro p h
    cases hstep : p.step t with
    | error cause =>
      have hread : read a p (t :: ts) = stopAt a p (.error cause) := by rw [read, hstep]
      rw [hread, stopAt_count]
      exact ⟨Nat.zero_le _, p, .error cause, rfl, rfl, Or.inl ⟨t, cause, rfl, hstep, rfl⟩⟩
    | ok next =>
      have hpeak : p.peak a.cost (t :: ts) =
          max (depth a.cost next.stack) (next.peak a.cost ts) := by rw [Phase.peak, hstep]
      rw [hpeak] at h
      have hdepth := Allowance.covers_of_le h (Nat.le_max_left _ _)
      obtain ⟨hle, q, stop, hrun, hresult, hend⟩ :=
        ih (Allowance.covers_of_le h (Nat.le_max_right _ _))
      have hread : read a p (t :: ts) =
          { read a next ts with count := (read a next ts).count + 1 } := by
        rw [read, hstep]
        exact if_pos hdepth
      rw [hread]
      refine ⟨Nat.succ_le_succ hle, q, stop, ?_, hresult, ?_⟩
      · rw [List.take_succ_cons, Phase.run_cons hstep]
        exact hrun
      · rcases hend with ⟨u, cause, hu, hrefused, hstop⟩ | ⟨hlen, hstop⟩
        · exact Or.inl ⟨u, cause, by rw [List.getElem?_cons_succ]; exact hu, hrefused, hstop⟩
        · exact Or.inr ⟨by rw [List.length_cons, hlen], hstop⟩

theorem stopAt_eq_ok_iff {a : Allowance Opening} {q : Phase} {stop : Except SyntaxError.Cause Expr}
    (e : Expr) : (stopAt a q stop).result = .ok e ↔ stop = .ok e := by
  cases stop with
  | ok tree => simp [stopAt]
  | error cause =>
    rw [stopAt]
    split <;> simp

/-- **A tree is the result exactly if a run over all tokens ends in it.** -/
theorem read_eq_ok_iff {a : Allowance Opening} {tokens : List Token} {p : Phase}
    (h : a.covers (p.peak a.cost tokens) = true) (e : Expr) :
    (read a p tokens).result = .ok e ↔ ∃ q, p.run tokens = .ok q ∧ q.finish = .ok e := by
  obtain ⟨-, q, stop, hrun, hresult, ⟨t, cause, ht, hrefused, hstop⟩ | ⟨hlen, hstop⟩⟩ :=
    read_stops h
  · rw [hresult, stopAt_eq_ok_iff, hstop]
    obtain ⟨hlt, rfl⟩ := List.getElem?_eq_some_iff.mp ht
    have hfail := Phase.run_append_error hrun hrefused
      (tokens.drop ((read a p tokens).count + 1))
    rw [← List.drop_eq_getElem_cons hlt, List.take_append_drop] at hfail
    simp [hfail]
  · rw [hlen, List.take_length] at hrun
    rw [hresult, stopAt_eq_ok_iff, hstop, hrun]
    simp

/-! ### Reports that are broken off -/

section Reports

variable {a : Allowance Opening}

theorem covers_peak {tokens : List Token} : ∀ {p : Phase},
    a.covers (p.peakWithReport a.cost tokens) = true → a.covers (p.peak a.cost tokens) = true := by
  induction tokens with
  | nil => exact fun _ => Allowance.covers_zero a
  | cons t ts ih =>
    intro p h
    rw [Phase.peakWithReport] at h
    rw [Phase.peak]
    cases hstep : p.step t with
    | error cause => exact Allowance.covers_zero a
    | ok next =>
      rw [hstep, Allowance.covers_max, Bool.and_eq_true] at h
      rw [Allowance.covers_max, h.1, ih h.2]
      rfl

/-- **Within the depth that a report needs**, reading is not exhausted. -/
theorem read_of_covers {tokens : List Token} : ∀ {p : Phase},
    a.covers (p.peakWithReport a.cost tokens) = true →
      (read a p tokens).result ≠ .error .exhausted ∧ (read a p tokens).brokenOff = none := by
  have hstop : ∀ {p : Phase} (stop : Except SyntaxError.Cause Expr),
      (∀ cause, stop = .error cause → a.covers (p.reportDepth a.cost cause) = true) →
        (stopAt a p stop).result ≠ .error .exhausted ∧ (stopAt a p stop).brokenOff = none := by
    intro p stop hreport
    cases stop with
    | ok tree =>
      refine ⟨fun hexhausted => ?_, rfl⟩
      cases hexhausted
    | error cause =>
      rw [stopAt, if_pos (hreport cause rfl)]
      refine ⟨fun hexhausted => ?_, rfl⟩
      cases hexhausted
  induction tokens with
  | nil =>
    intro p h
    refine hstop p.finish fun cause hcause => ?_
    rw [Phase.peakWithReport, hcause] at h
    exact h
  | cons t ts ih =>
    intro p h
    rw [Phase.peakWithReport] at h
    rw [read]
    cases hstep : p.step t with
    | error cause =>
      rw [hstep] at h
      refine hstop (.error cause) fun _ hcause => ?_
      rw [← Except.error.inj hcause, h]
    | ok next =>
      rw [hstep, Allowance.covers_max, Bool.and_eq_true] at h
      simp only [if_pos h.1]
      exact ih h.2

/-- **Outside the depth of the tokens**, reading is exhausted before anything is wrong. -/
theorem read_of_not_covers {tokens : List Token} : ∀ {p : Phase},
    a.covers (p.peak a.cost tokens) = false →
      (read a p tokens).result = .error .exhausted ∧ (read a p tokens).brokenOff = none := by
  induction tokens with
  | nil =>
    intro p h
    rw [Phase.peak, Allowance.covers_zero] at h
    cases h
  | cons t ts ih =>
    intro p h
    rw [Phase.peak] at h
    rw [read]
    cases hstep : p.step t with
    | error cause =>
      rw [hstep] at h
      dsimp only at h
      rw [Allowance.covers_zero] at h
      cases h
    | ok next =>
      rw [hstep, Allowance.covers_max] at h
      dsimp only
      cases hcovers : a.covers (depth a.cost next.stack) with
      | false => exact ⟨rfl, rfl⟩
      | true =>
        rw [hcovers, Bool.true_and] at h
        exact ih h

/-- **In between**, the tokens are read and the report of what is wrong with them is broken off. -/
theorem brokenOff_read {tokens : List Token} : ∀ {p : Phase},
    a.covers (p.peak a.cost tokens) = true →
    a.covers (p.peakWithReport a.cost tokens) = false →
      (read a p tokens).result = .error .exhausted ∧
        ∃ cause, (read a p tokens).brokenOff = some cause := by
  have hstop : ∀ {p : Phase} {cause : SyntaxError.Cause},
      a.covers (p.reportDepth a.cost cause) = false →
        (stopAt a p (.error cause)).result = .error .exhausted ∧
          ∃ cause', (stopAt a p (.error cause)).brokenOff = some cause' := by
    intro p cause h
    rw [stopAt, if_neg (Bool.eq_false_iff.mp h)]
    exact ⟨rfl, cause, rfl⟩
  induction tokens with
  | nil =>
    intro p _ h
    rw [Phase.peakWithReport] at h
    rw [read]
    cases hfinish : p.finish with
    | ok tree =>
      rw [hfinish] at h
      dsimp only at h
      rw [Allowance.covers_zero] at h
      cases h
    | error cause =>
      rw [hfinish] at h
      exact hstop h
  | cons t ts ih =>
    intro p hpeak h
    rw [Phase.peak] at hpeak
    rw [Phase.peakWithReport] at h
    rw [read]
    cases hstep : p.step t with
    | error cause =>
      rw [hstep] at h
      exact hstop h
    | ok next =>
      rw [hstep, Allowance.covers_max, Bool.and_eq_true] at hpeak
      rw [hstep, Allowance.covers_max, hpeak.1, Bool.true_and] at h
      simp only [if_pos hpeak.1]
      exact ih hpeak.2 h

end Reports

end Parser

end LoxCalc
