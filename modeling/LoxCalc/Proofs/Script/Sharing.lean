import LoxCalc.Proofs.Script.Moves
import Mathlib.Algebra.BigOperators.Group.Finset.Piecewise
import Mathlib.Data.List.Forall2
import Mathlib.Logic.Function.Basic

/-!
# Scripts that share a reporter

A `Bench` holds several scripts and one reporter for all of them, and steps are taken on
it in any order.  **Scripts that share a reporter do not influence each other.**  What a
script answers, and what it reports and notes, is what the same steps of that script give
when they are taken alone, with a reporter that has been given nothing.

A step is a move whatever the reporter is, so a whole run is decided by its `Effect`s,
the answers and entries of its steps; and the effects of one script are those of its run
alone.

* `Bench.exists_effects`: the effects of a run and of all its parts.
* `Bench.shared_run`: the shared run and the runs alone.
-/

namespace LoxCalc

open Entry Session

structure Bench (ι σ : Type) where
  scripts : ι → Script
  reporter : Reporter σ

structure Exchange (ι σ : Type) where
  who : ι
  answer : Except Fault Answer
  before : Reporter σ
  after : Reporter σ

/-- What is the same of a step whatever the reporter is. -/
structure Effect (ι : Type) where
  who : ι
  answer : Except Fault Answer
  entries : List Entry

namespace Bench

variable {ι σ τ : Type} [DecidableEq ι] [Sink σ] [Sink τ]

def step (limits : Limits) (b : Bench ι σ) (who : ι) (q : Step) : Exchange ι σ × Bench ι σ :=
  let next := Session.step limits ⟨b.scripts who, b.reporter⟩ q
  (⟨who, next.1, b.reporter, next.2.reporter⟩,
    ⟨Function.update b.scripts who next.2.script, next.2.reporter⟩)

def run (limits : Limits) : Bench ι σ → List (ι × Step) → List (Exchange ι σ) × Bench ι σ
  | b, [] => ([], b)
  | b, (who, q) :: steps =>
    let next := b.step limits who q
    let rest := run limits next.2 steps
    (next.1 :: rest.1, rest.2)

/-- The steps of one script alone, with a reporter to which nothing has been reported. -/
def runAlone (limits : Limits) (b : Bench ι σ) (sink : τ) (steps : List (ι × Step)) (i : ι) :
    List (Exchange ι τ) × Bench ι τ :=
  run limits ⟨b.scripts, .fresh sink⟩ (steps.filter (·.1 = i))

end Bench

namespace Exchange

variable {ι σ τ : Type} [Sink σ] [Sink τ]

/-- Whether two steps have the same answer and give the same to their reporters. -/
def SameAs (x : Exchange ι σ) (y : Exchange ι τ) : Prop :=
  x.answer = y.answer ∧ ∃ es, x.after = x.before.enterAll es ∧ y.after = y.before.enterAll es

theorem SameAs.messages {x y : Exchange ι Collected} (h : x.SameAs y) :
    ∃ texts, x.after.sink.messages.toList = x.before.sink.messages.toList ++ texts ∧
      y.after.sink.messages.toList = y.before.sink.messages.toList ++ texts := by
  obtain ⟨-, es, hx, hy⟩ := h
  refine ⟨(diagnostics es).map Diagnostic.text, ?_, ?_⟩
  · rw [hx, Reporter.messages_enterAll]
  · rw [hy, Reporter.messages_enterAll]

def ofEffects : Reporter σ → List (Effect ι) → List (Exchange ι σ)
  | _, [] => []
  | r, m :: ms => ⟨m.who, m.answer, r, r.enterAll m.entries⟩ :: ofEffects (r.enterAll m.entries) ms

/-- The exchanges of one script are the same in a run of all scripts and in a run of its
own. -/
theorem forall₂_ofEffects [DecidableEq ι] (i : ι) (ms : List (Effect ι)) :
    ∀ (r : Reporter σ) (r' : Reporter τ),
      List.Forall₂ SameAs ((ofEffects r ms).filter (·.who = i))
        (ofEffects r' (ms.filter (·.who = i))) := by
  induction ms with
  | nil => exact fun _ _ => .nil
  | cons m ms ih =>
    intro r r'
    by_cases hwho : m.who = i
    · simp only [ofEffects, List.filter_cons, decide_eq_true_eq, if_pos hwho]
      exact .cons ⟨rfl, m.entries, rfl, rfl⟩ (ih _ _)
    · simp only [ofEffects, List.filter_cons, decide_eq_true_eq, if_neg hwho]
      exact ih _ _

end Exchange

namespace Effect

variable {ι : Type}

def allEntries (ms : List (Effect ι)) : List Entry :=
  ms.flatMap Effect.entries

theorem allEntries_cons (m : Effect ι) (ms : List (Effect ι)) :
    allEntries (m :: ms) = m.entries ++ allEntries ms := rfl

variable [DecidableEq ι]

/-- Every step is one of a single script, so the errors of the scripts add up. -/
theorem sum_errors [Fintype ι] (ms : List (Effect ι)) :
    ∑ i, errors (allEntries (ms.filter (·.who = i))) = errors (allEntries ms) := by
  induction ms with
  | nil => exact Finset.sum_const_zero
  | cons m ms ih =>
    have hsplit : ∀ i, errors (allEntries ((m :: ms).filter (·.who = i))) =
        (if m.who = i then errors m.entries else 0) +
          errors (allEntries (ms.filter (·.who = i))) := by
      intro i
      by_cases hwho : m.who = i
      · simp only [List.filter_cons, decide_eq_true_eq, if_pos hwho, allEntries_cons,
          errors_append]
      · simp only [List.filter_cons, decide_eq_true_eq, if_neg hwho, Nat.zero_add]
    calc ∑ i, errors (allEntries ((m :: ms).filter (·.who = i)))
        = ∑ i, ((if m.who = i then errors m.entries else 0) +
            errors (allEntries (ms.filter (·.who = i)))) := Finset.sum_congr rfl fun i _ => hsplit i
      _ = errors m.entries + errors (allEntries ms) := by
          rw [Finset.sum_add_distrib, Finset.sum_ite_eq, if_pos (Finset.mem_univ _), ih]
      _ = errors (allEntries (m :: ms)) := by rw [allEntries_cons, errors_append]

theorem any_counted (p : Diagnostic → Bool) (ms : List (Effect ι)) :
    (counted (allEntries ms)).any p = true ↔
      ∃ i, (counted (allEntries (ms.filter (·.who = i)))).any p = true := by
  have hany : ∀ ms : List (Effect ι), (counted (allEntries ms)).any p = true ↔
      ∃ m ∈ ms, (counted m.entries).any p = true := by
    intro ms
    rw [counted, allEntries, List.filterMap_flatMap, List.any_flatMap, List.any_eq_true]
    rfl
  simp only [hany, List.mem_filter, decide_eq_true_eq]
  constructor
  · rintro ⟨m, hm, hp⟩
    exact ⟨m.who, m, ⟨hm, rfl⟩, hp⟩
  · rintro ⟨i, m, ⟨hm, -⟩, hp⟩
    exact ⟨m, hm, hp⟩

end Effect

namespace Bench

variable {ι σ τ : Type} [DecidableEq ι] [Sink σ] [Sink τ]

/-- Whether steps on a bench with these scripts have the effects `ms`, with every
reporter. -/
def HasEffects (limits : Limits) (scripts : ι → Script) (steps : List (ι × Step))
    (ms : List (Effect ι)) : Prop :=
  ∀ {σ : Type} [Sink σ] (r : Reporter σ),
    (run limits ⟨scripts, r⟩ steps).1 = Exchange.ofEffects r ms ∧
      (run limits ⟨scripts, r⟩ steps).2.reporter = r.enterAll (Effect.allEntries ms)

theorem HasEffects.cons {limits : Limits} {scripts : ι → Script} {who : ι} {q : Step}
    {steps : List (ι × Step)} {m : Move (Except Fault Answer)} {ms : List (Effect ι)}
    (hm : ∀ {σ : Type} [Sink σ] (r : Reporter σ),
      Session.step limits ⟨scripts who, r⟩ q = (m.answer, ⟨m.script, r.enterAll m.entries⟩))
    (h : HasEffects limits (Function.update scripts who m.script) steps ms) :
    HasEffects limits scripts ((who, q) :: steps) (⟨who, m.answer, m.entries⟩ :: ms) := by
  intro σ _ r
  obtain ⟨hseen, hafter⟩ := h (r.enterAll m.entries)
  simp only [run, step, hm, hseen, hafter, Exchange.ofEffects, Effect.allEntries_cons,
    Reporter.enterAll_append, and_self]

def breaks (limits : Limits) : Bench ι σ → List (ι × Step) → Nat
  | _, [] => 0
  | b, (who, q) :: steps =>
    (q.breaksOff limits (b.scripts who)).toNat + breaks limits (b.step limits who q).2 steps

/-- Whether the entries of effects tell how many reports are broken off. -/
structure Breaks (limits : Limits) (scripts : ι → Script) (steps : List (ι × Step))
    (es : List Entry) : Prop where
  madeUp : MadeUp es
  countP : ∀ {σ : Type} [Sink σ] (r : Reporter σ),
    es.countP isCount = breaks limits ⟨scripts, r⟩ steps

/-- **The effects of a run**: they are the same with every reporter, and those of one
script are the effects of its steps alone. -/
theorem exists_effects (limits : Limits) (steps : List (ι × Step)) : ∀ scripts : ι → Script,
    ∃ ms : List (Effect ι), HasEffects limits scripts steps ms ∧
      (∀ (i : ι) (scripts' : ι → Script), scripts' i = scripts i →
        HasEffects limits scripts' (steps.filter (·.1 = i)) (ms.filter (·.who = i))) ∧
      Breaks limits scripts steps (Effect.allEntries ms) := by
  induction steps with
  | nil =>
    exact fun scripts =>
      ⟨[], fun r => ⟨rfl, rfl⟩, fun i scripts' _ _ _ r => ⟨rfl, rfl⟩, .nil, fun r => rfl⟩
  | cons head steps ih =>
    obtain ⟨who, q⟩ := head
    intro scripts
    obtain ⟨m, hm, hmade, hcount⟩ := exists_move_step limits (scripts who) q
    obtain ⟨ms, hall, hpart, hrest⟩ := ih (Function.update scripts who m.script)
    refine ⟨⟨who, m.answer, m.entries⟩ :: ms, HasEffects.cons hm hall,
      fun i scripts' hsame => ?_, hmade.append hrest.madeUp, fun r => ?_⟩
    · by_cases hwho : who = i
      · subst hwho
        simp only [List.filter_cons, decide_true, if_true]
        refine HasEffects.cons (fun r => ?_) (hpart who _ ?_)
        · rw [hsame, hm]
        · rw [Function.update_self, Function.update_self]
      · simp only [List.filter_cons, decide_eq_true_eq, if_neg hwho]
        -- a step of another script leaves this one as it is
        exact hpart i scripts' (by rw [hsame, Function.update_of_ne (Ne.symm hwho)])
    · rw [Effect.allEntries_cons, List.countP_append, hcount, hrest.countP (r.enterAll m.entries),
        breaks, step, hm]

/-- **Scripts that share a reporter do not influence each other.**  Each of them gets the
answers, and gives the reporter the entries, of its steps alone; the errors add up to what
the reporter has counted before, and a flag is raised if it was raised before or by a
script alone. -/
theorem shared_run [Fintype ι] (limits : Limits) (b : Bench ι σ) (steps : List (ι × Step))
    (sink : τ) :
    (∀ i, List.Forall₂ Exchange.SameAs ((b.run limits steps).1.filter (·.who = i))
      (b.runAlone limits sink steps i).1) ∧
    (b.run limits steps).2.reporter.errorCount =
      b.reporter.errorCount + ∑ i, (b.runAlone limits sink steps i).2.reporter.errorCount ∧
    ((b.run limits steps).2.reporter.hadError = true ↔ b.reporter.hadError = true ∨
      ∃ i, (b.runAlone limits sink steps i).2.reporter.hadError = true) ∧
    ((b.run limits steps).2.reporter.hadRuntimeError = true ↔ b.reporter.hadRuntimeError = true ∨
      ∃ i, (b.runAlone limits sink steps i).2.reporter.hadRuntimeError = true) := by
  obtain ⟨ms, hall, hpart, -⟩ := exists_effects limits steps b.scripts
  obtain ⟨hseen, hafter⟩ := hall b.reporter
  have halone : ∀ i, (b.runAlone limits sink steps i).1 =
        Exchange.ofEffects (.fresh sink) (ms.filter (·.who = i)) ∧
      (b.runAlone limits sink steps i).2.reporter =
        (Reporter.fresh sink).enterAll (Effect.allEntries (ms.filter (·.who = i))) :=
    fun i => hpart i b.scripts rfl (.fresh sink)
  refine ⟨fun i => ?_, ?_, ?_, ?_⟩
  · rw [hseen, (halone i).1]
    exact Exchange.forall₂_ofEffects i ms _ _
  · rw [hafter, Reporter.errorCount_enterAll, ← Effect.sum_errors ms]
    refine congrArg _ (Finset.sum_congr rfl fun i _ => ?_)
    rw [(halone i).2, Reporter.errorCount_enterAll]
    exact (Nat.zero_add _).symm
  · rw [hafter, Reporter.hadError_enterAll, Bool.or_eq_true, Effect.any_counted]
    simp only [(halone _).2, Reporter.hadError_enterAll, Reporter.fresh, Bool.false_or]
  · rw [hafter, Reporter.hadRuntimeError_enterAll, Bool.or_eq_true, Effect.any_counted]
    simp only [(halone _).2, Reporter.hadRuntimeError_enterAll, Reporter.fresh, Bool.false_or]

end Bench

end LoxCalc
