import LoxCalc.Proofs.Grammar.Reading
import LoxCalc.Proofs.Parser.Run

/-!
# What a parse builds

Between two tokens, a stack and an operand hold everything that has been read:
`Phase.marks` reads them off, from the outermost frame to the operand.  A step
adds the mark of its token (`marks_step`), so **folding moves nothing**.

A stack is shaped (`StackShaped`) if every frame is fit to be the operand of the
frame below it, whatever tree is going to fill it.  `Takes` says which trees a
frame can be filled with.  Steps keep a phase shaped (`shaped_step`): an operator
first folds what binds at least as tightly as it does, so what it leaves below
it binds more loosely.

`finish_sound` is the result: the tree at the end of a run is shaped and is a
reading of the tokens of the run.
-/

namespace LoxCalc.Parser

open LoxCalc.Expr

/-! ### Marks of a phase -/

def Frame.marks : Frame → List Mark
  | .group => [.plain .leftParen]
  | .sign op => [.operator op]
  | .infixed _ left op => left.marks ++ [.operator op]
  | .thenBranch c => c.marks ++ [.plain .question]
  | .elseBranch c t => c.marks ++ .plain .question :: (t.marks ++ [.plain .colon])

def stackMarks : List Frame → List Mark
  | [] => []
  | frame :: stack => stackMarks stack ++ frame.marks

def Phase.marks : Phase → List Mark
  | .operand stack => stackMarks stack
  | .operator stack e => stackMarks stack ++ e.marks

theorem marks_fold (n : Nat) : ∀ (stack : List Frame) (e : Expr),
    stackMarks (fold n stack e).1 ++ (fold n stack e).2.marks = stackMarks stack ++ e.marks := by
  intro stack
  induction stack with
  | nil => intro e; rfl
  | cons frame stack ih =>
    intro e
    cases frame with
    | sign op =>
      rw [fold, ih, stackMarks, Frame.marks, Expr.marks, List.append_assoc]
      rfl
    | infixed l left op =>
      rw [fold]
      split
      · rw [ih, stackMarks, Frame.marks, Expr.marks]
        simp only [List.append_assoc, List.cons_append, List.nil_append]
      · rfl
    | group | thenBranch _ | elseBranch _ _ => rfl

theorem marks_close : ∀ (stack : List Frame) (e : Expr),
    stackMarks (close stack e).1 ++ (close stack e).2.marks = stackMarks stack ++ e.marks := by
  intro stack
  induction stack with
  | nil => intro e; rfl
  | cons frame stack ih =>
    intro e
    cases frame with
    | sign op =>
      rw [close, ih, stackMarks, Frame.marks, Expr.marks, List.append_assoc]
      rfl
    | infixed l left op =>
      rw [close, ih, stackMarks, Frame.marks, Expr.marks]
      simp only [List.append_assoc, List.cons_append, List.nil_append]
    | elseBranch c t =>
      rw [close, ih, stackMarks, Frame.marks, Expr.marks]
      simp only [List.append_assoc, List.cons_append, List.nil_append]
    | group | thenBranch _ => rfl

theorem mark_literal {t : Token} (ht : t.LiteralTyped) (hk : t.kind = .number ∨ t.kind = .string) :
    (literal t.literal).marks = [t.mark] := by
  obtain ⟨kind, lexeme, value, line⟩ := t
  rcases hk with rfl | rfl
  · cases value <;> simp [Token.LiteralTyped, Value.isNumber] at ht
    rfl
  · cases value <;> simp [Token.LiteralTyped, Value.isString] at ht
    rfl

theorem mark_binaryOperator {t : Token} {n : Nat} (h : t.kind.level? = some n) :
    t.mark = .operator t := by
  obtain ⟨kind, lexeme, value, line⟩ := t
  cases kind <;> simp [Kind.level?] at h <;> rfl

namespace Phase

theorem marks_beginOperand {stack : List Frame} {t : Token} {next : Phase} (ht : t.LiteralTyped)
    (h : beginOperand stack t.kind t = .ok next) : next.marks = stackMarks stack ++ [t.mark] := by
  unfold beginOperand at h
  split at h <;> cases h <;> rename_i hk
  case h_4 => rw [marks, mark_literal ht (Or.inl hk)]
  case h_5 => rw [marks, mark_literal ht (Or.inr hk)]
  all_goals
    rw [Token.mark, hk]
    rfl

theorem marks_endOperand {stack : List Frame} {e : Expr} {t : Token} {next : Phase}
    (h : endOperand stack e t.kind = .ok next) :
    next.marks = stackMarks stack ++ e.marks ++ [t.mark] := by
  have hclose := marks_close stack e
  unfold endOperand at h
  split at h
  · rename_i rest inner hc hk
    cases h
    rw [hc] at hclose
    rw [← hclose, Token.mark, hk]
    simp [marks, stackMarks, Frame.marks, Expr.marks]
  · rename_i condition rest branch hc hk
    cases h
    rw [hc] at hclose
    rw [← hclose, Token.mark, hk]
    simp [marks, stackMarks, Frame.marks]
  · cases h

theorem marks_afterOperand {stack : List Frame} {e : Expr} {t : Token} {next : Phase}
    (h : afterOperand stack e t.kind t = .ok next) :
    next.marks = stackMarks stack ++ e.marks ++ [t.mark] := by
  unfold afterOperand at h
  split at h
  · rename_i n hn
    cases h
    rw [← marks_fold n stack e, mark_binaryOperator hn]
    simp [marks, stackMarks, Frame.marks]
  · split at h
    · rename_i hk
      cases h
      rw [← marks_fold conditionLevel stack e, Token.mark, hk]
      simp [marks, stackMarks, Frame.marks]
    · exact marks_endOperand h

/-- **A step adds the mark of its token.** -/
theorem marks_step {p next : Phase} {t : Token} (ht : t.LiteralTyped) (h : p.step t = .ok next) :
    next.marks = p.marks ++ [t.mark] := by
  cases p with
  | operand stack => exact marks_beginOperand ht h
  | operator stack e => exact marks_afterOperand h

end Phase

/-! ### Shaped stacks -/

/-- Whether a tree can be the operand that the innermost frame waits for. -/
def Takes : List Frame → Expr → Prop
  | .sign _ :: _, e => operandLevel ≤ e.level
  | .infixed n _ _ :: _, e => RightOf n e
  | _, _ => True

/-- Whether the levels of the grammar allow a stack.  The trees that are still to
come are arbitrary here; each frame sees to its own operand. -/
def StackShaped : List Frame → Prop
  | [] => True
  | .group :: stack => StackShaped stack
  | .sign op :: stack => (op.kind = .bang ∨ op.kind = .minus) ∧ StackShaped stack
  | .infixed n left op :: stack =>
    op.kind.level? = some n ∧ left.Shaped ∧ LeftOf n left ∧
      (∀ r, Takes stack (.binary left op r)) ∧ StackShaped stack
  | .thenBranch c :: stack =>
    c.Shaped ∧ conditionLevel ≤ c.level ∧ (∀ t e, Takes stack (.conditional c t e)) ∧
      StackShaped stack
  | .elseBranch c t :: stack =>
    c.Shaped ∧ conditionLevel ≤ c.level ∧ t.Shaped ∧ (∀ e, Takes stack (.conditional c t e)) ∧
      StackShaped stack

/-- Whether the levels of the grammar allow a phase.  An operand that has just
been read is a literal or a group. -/
def Phase.Shaped : Phase → Prop
  | .operand stack => StackShaped stack
  | .operator stack e =>
    StackShaped stack ∧ e.Shaped ∧ operandLevel ≤ e.level ∧ e.endsInBranch = false

theorem takes_of_operandLevel {stack : List Frame} {e : Expr} (h : StackShaped stack)
    (he : operandLevel ≤ e.level) : Takes stack e := by
  cases stack with
  | nil => trivial
  | cons frame stack =>
    cases frame with
    | sign _ => exact he
    | infixed n left op => exact rightOf_of_operandLevel h.1 he
    | group | thenBranch _ | elseBranch _ _ => trivial

/-- Whether folding at level `n` stops at the innermost frame. -/
def StopsAt (n : Nat) : List Frame → Prop
  | .sign _ :: _ => False
  | .infixed l _ _ :: _ => l < n
  | _ => True

theorem StopsAt.takes_binary {n : Nat} {stack : List Frame} (h : StopsAt n stack) {op : Token}
    (hop : op.kind.level? = some n) (l r : Expr) : Takes stack (.binary l op r) := by
  cases stack with
  | nil => trivial
  | cons frame stack =>
    cases frame with
    | sign _ => exact h.elim
    | infixed m _ _ => exact Or.inl (by rw [level_binary hop]; exact h)
    | group | thenBranch _ | elseBranch _ _ => trivial

theorem StopsAt.takes_conditional {stack : List Frame} (h : StopsAt conditionLevel stack)
    (c t e : Expr) : Takes stack (.conditional c t e) := by
  cases stack with
  | nil => trivial
  | cons frame stack =>
    cases frame with
    | sign _ => exact h.elim
    | infixed m _ _ => exact Or.inr ⟨Nat.lt_one_iff.mp h, rfl⟩
    | group | thenBranch _ | elseBranch _ _ => trivial

/-- **Folding at a level** gives an operand that may stand to the left of that
level and a stack that binds more loosely. -/
theorem shaped_fold {n : Nat} : ∀ {stack : List Frame} {e : Expr},
    StackShaped stack → e.Shaped → Takes stack e → LeftOf n e →
      StackShaped (fold n stack e).1 ∧ (fold n stack e).2.Shaped ∧
        LeftOf n (fold n stack e).2 ∧ StopsAt n (fold n stack e).1 := by
  intro stack
  induction stack with
  | nil => intro e hs he _ hn; exact ⟨hs, he, hn, trivial⟩
  | cons frame stack ih =>
    intro e hs he ht hn
    cases frame with
    | sign op =>
      rw [fold]
      have hlevel : operandLevel ≤ (unary op e).level := Nat.le_refl _
      exact ih hs.2 ⟨hs.1, ht, he⟩ (takes_of_operandLevel hs.2 hlevel)
        ⟨Nat.le_trans hn.1 (level_le_operandLevel e), hn.2⟩
    | infixed l left op =>
      obtain ⟨hop, hleft, hfit, htakes, hrest⟩ := hs
      rw [fold]
      split
      · rename_i hnl
        exact ih hrest (shaped_binary_iff.mpr ⟨l, hop, hleft, he, hfit, ht⟩) (htakes e)
          ⟨by rw [level_binary hop]; exact hnl, hn.2⟩
      · rename_i hnl
        exact ⟨⟨hop, hleft, hfit, htakes, hrest⟩, he, hn, Nat.lt_of_not_le hnl⟩
    | group | thenBranch _ | elseBranch _ _ => exact ⟨hs, he, hn, trivial⟩

def Waits : List Frame → Prop
  | [] | .group :: _ | .thenBranch _ :: _ => True
  | _ => False

theorem waits_close : ∀ (stack : List Frame) (e : Expr), Waits (close stack e).1 := by
  intro stack
  induction stack with
  | nil => intro e; trivial
  | cons frame stack ih =>
    intro e
    cases frame with
    | sign op => rw [close]; exact ih _
    | infixed l left op => rw [close]; exact ih _
    | elseBranch c t => rw [close]; exact ih _
    | group | thenBranch _ => trivial

/-- **Closing** gives a shaped operand. -/
theorem shaped_close : ∀ {stack : List Frame} {e : Expr},
    StackShaped stack → e.Shaped → Takes stack e →
      StackShaped (close stack e).1 ∧ (close stack e).2.Shaped := by
  intro stack
  induction stack with
  | nil => intro e hs he _; exact ⟨hs, he⟩
  | cons frame stack ih =>
    intro e hs he ht
    cases frame with
    | sign op =>
      rw [close]
      exact ih hs.2 ⟨hs.1, ht, he⟩ (takes_of_operandLevel hs.2 (Nat.le_refl _))
    | infixed l left op =>
      obtain ⟨hop, hleft, hfit, htakes, hrest⟩ := hs
      rw [close]
      exact ih hrest (shaped_binary_iff.mpr ⟨l, hop, hleft, he, hfit, ht⟩) (htakes e)
    | elseBranch c t =>
      obtain ⟨hc, hlevel, hb, htakes, hrest⟩ := hs
      rw [close]
      exact ih hrest ⟨hc, hlevel, hb, he⟩ (htakes e)
    | group | thenBranch _ => exact ⟨hs, he⟩

/-! ### Steps keep a phase shaped -/

namespace Phase

theorem shaped_beginOperand {stack : List Frame} {t : Token} {next : Phase}
    (hs : StackShaped stack) (h : beginOperand stack t.kind t = .ok next) : next.Shaped := by
  unfold beginOperand at h
  split at h <;> cases h <;> rename_i hk
  case h_6 => exact hs
  case h_7 => exact ⟨Or.inl hk, hs⟩
  case h_8 => exact ⟨Or.inr hk, hs⟩
  all_goals exact ⟨hs, trivial, Nat.le_refl _, rfl⟩

theorem shaped_endOperand {stack : List Frame} {e : Expr} {t : Token} {next : Phase}
    (hs : StackShaped stack) (he : e.Shaped) (ht : Takes stack e)
    (h : endOperand stack e t.kind = .ok next) : next.Shaped := by
  have hclose := shaped_close hs he ht
  unfold endOperand at h
  split at h
  · rename_i rest inner hc hk
    cases h
    rw [hc] at hclose
    exact ⟨hclose.1, hclose.2, Nat.le_refl _, rfl⟩
  · rename_i condition rest branch hc hk
    cases h
    rw [hc] at hclose
    obtain ⟨⟨hcond, hlevel, htakes, hrest⟩, hbranch⟩ := hclose
    exact ⟨hcond, hlevel, hbranch, htakes branch, hrest⟩
  · cases h

theorem shaped_afterOperand {stack : List Frame} {e : Expr} {t : Token} {next : Phase}
    (hp : (operator stack e).Shaped) (h : afterOperand stack e t.kind t = .ok next) : next.Shaped := by
  obtain ⟨hs, he, hlevel, hend⟩ := hp
  have ht := takes_of_operandLevel hs hlevel
  unfold afterOperand at h
  split at h
  · rename_i n hn
    cases h
    have hle : n ≤ e.level := Nat.le_trans (Nat.le_of_lt (level_lt_operandLevel hn)) hlevel
    obtain ⟨hrest, hleft, hfit, hstop⟩ := shaped_fold hs he ht (show LeftOf n e from ⟨hle, hend⟩)
    exact ⟨hn, hleft, hfit, hstop.takes_binary hn _, hrest⟩
  · split at h
    · cases h
      have hle : conditionLevel ≤ e.level := Nat.le_trans (by decide) hlevel
      obtain ⟨hrest, hcond, hfit, hstop⟩ :=
        shaped_fold hs he ht (show LeftOf conditionLevel e from ⟨hle, hend⟩)
      exact ⟨hcond, hfit.1, hstop.takes_conditional _, hrest⟩
    · exact shaped_endOperand hs he ht h

/-- **A step keeps a phase shaped.** -/
theorem shaped_step {p next : Phase} {t : Token} (hp : p.Shaped) (h : p.step t = .ok next) :
    next.Shaped := by
  cases p with
  | operand stack => exact shaped_beginOperand hp h
  | operator stack e => exact shaped_afterOperand hp h

/-- **The tree of a run** is shaped and is a reading of the tokens of the run. -/
theorem finish_sound {tokens : List Token} {q : Phase} {e : Expr}
    (htyped : ∀ t ∈ tokens, t.LiteralTyped) (hrun : initial.run tokens = .ok q)
    (hfinish : q.finish = .ok e) : e.marks = tokens.map Token.mark ∧ e.Shaped := by
  have hinv : (∀ t ∈ tokens, t.LiteralTyped) → q.marks = tokens.map Token.mark ∧ q.Shaped := by
    have start : initial.Shaped := show StackShaped [] from trivial
    refine run_induction (P := fun p done => (∀ t ∈ done, t.LiteralTyped) →
      p.marks = done.map Token.mark ∧ p.Shaped) (fun _ => ⟨rfl, start⟩) ?_ hrun
    intro p done t next ih hstep htyped
    obtain ⟨hmarks, hshaped⟩ := ih (fun u hu => htyped u (List.mem_append_left _ hu))
    refine ⟨?_, shaped_step hshaped hstep⟩
    rw [marks_step (htyped t (by simp)) hstep, hmarks, List.map_append, List.map_singleton]
  obtain ⟨hmarks, hshaped⟩ := hinv htyped
  cases q with
  | operand stack => cases hfinish
  | operator stack inner =>
    obtain ⟨hs, he, hlevel, hend⟩ := hshaped
    have hclose := shaped_close hs he (takes_of_operandLevel hs hlevel)
    have hm := marks_close stack inner
    rw [finish] at hfinish
    split at hfinish
    · rename_i tree hc
      cases hfinish
      rw [hc] at hclose hm
      exact ⟨hm.trans hmarks, hclose.2⟩
    · cases hfinish

end Phase

end LoxCalc.Parser
