import LoxCalc.Diagnostic

/-!
# Reporters

A reporter takes the diagnostics of one or several sources.  It counts the
lexical and syntax errors, remembers whether there was one and whether there was
a runtime error, and hands every diagnostic to a *sink*.  Nothing is ever taken
back.

**A diagnostic is counted before it is said.**  A report that is broken off in
between leaves its mark on the count and on a flag, and nothing else.

A sink only takes what it is given, so what a reporter counts does not depend on
it.  There are three of them here: an array that collects the messages, a text
stream that gets each message with a newline, and `Unit`, which keeps nothing.
All of them let traces pass by.
-/

namespace LoxCalc

/-- Something that takes messages and traces. -/
class Sink (σ : Type) where
  /-- The sink after a message. -/
  say : σ → String → σ
  /-- The sink after a trace. -/
  note : σ → Trace → σ

structure Collected where
  messages : Array String
  deriving DecidableEq, Repr

instance : Sink Collected where
  say s message := ⟨s.messages.push message⟩
  note s _ := s

structure TextStream where
  written : String
  deriving DecidableEq, Repr

instance : Sink TextStream where
  say s message := ⟨s.written ++ message ++ "\n"⟩
  note s _ := s

instance : Sink Unit where
  say s _ := s
  note s _ := s

/-- A sink with what a host wants to know about all that was reported. -/
structure Reporter (σ : Type) where
  sink : σ
  /-- The number of lexical and syntax errors. -/
  errorCount : Nat
  /-- Whether there was a lexical or syntax error. -/
  hadError : Bool
  /-- Whether there was a runtime error. -/
  hadRuntimeError : Bool
  deriving DecidableEq, Repr

namespace Reporter

variable {σ : Type} [Sink σ]

def fresh (sink : σ) : Reporter σ :=
  ⟨sink, 0, false, false⟩

def note (r : Reporter σ) (t : Trace) : Reporter σ :=
  { r with sink := Sink.note r.sink t }

/-- The reporter when a diagnostic has been counted and nothing has been said yet. -/
def count (r : Reporter σ) : Diagnostic → Reporter σ
  | .source .. => { r with errorCount := r.errorCount + 1, hadError := true }
  | .runtime .. => { r with hadRuntimeError := true }

/-- The reporter after a diagnostic that has been counted is traced and said. -/
def tell (r : Reporter σ) (d : Diagnostic) : Reporter σ :=
  let traced := r.note (.reported d)
  { traced with sink := Sink.say traced.sink d.text }

def report (r : Reporter σ) (d : Diagnostic) : Reporter σ :=
  (r.count d).tell d

def reportAll (r : Reporter σ) (ds : List Diagnostic) : Reporter σ :=
  ds.foldl report r

end Reporter

end LoxCalc
