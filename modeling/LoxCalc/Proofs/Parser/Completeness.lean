import LoxCalc.Proofs.Parser.Soundness
import LoxCalc.Limits

/-!
# Reading a shaped tree

A parse folds an operand only when the next token shows how far it reaches.  So
after the tokens of a tree the tree itself is not there yet: what is there is its
right edge, one frame for every operation that ends with it.  `Expr.opened` lays
a tree open in this way on top of a stack.

**`run_of_shaped`**: reading the tokens of a shaped tree lays it open.  What comes
next puts it together again: an operator that may follow it folds it as a whole
(`fold_opened`), and so does a closing token (`close_opened`).

Together with `finish_sound` this says what a parser accepts:
`parse_eq_ok_iff_reading`.
-/

namespace LoxCalc

/-! ### Marks and kinds -/

namespace Token

theorem eq_of_mark_operator {t op : Token} (h : t.mark = .operator op) : t = op := by
  unfold mark at h
  split at h <;> simp at h
  exact h

theorem kind_of_mark_plain {t : Token} {k : Kind} (h : t.mark = .plain k) : t.kind = k := by
  unfold mark at h
  split at h <;> simp at h
  all_goals exact h

theorem beginOperand_of_mark {t : Token} {v : Value} (h : t.mark = .literal v.tokenKind? v)
    (stack : List Parser.Frame) :
    Parser.Phase.beginOperand stack t.kind t = .ok (.operator stack (.literal v)) := by
  unfold mark at h
  split at h <;> simp at h <;> rename_i hk <;> obtain ⟨-, rfl⟩ := h <;>
    simp [Parser.Phase.beginOperand, hk]

end Token

/-! ### Trees laid open -/

namespace Expr

open LoxCalc.Parser

/-- A tree laid open on a stack: its right edge as frames, and the operand at the
end of it. -/
def opened : Expr → List Frame → List Frame × Expr
  | .unary op e, stack => e.opened (.sign op :: stack)
  | .binary l op r, stack => r.opened (.infixed (op.kind.level?.getD 0) l op :: stack)
  | .conditional c t e, stack => e.opened (.elseBranch c t :: stack)
  | e, stack => (stack, e)

theorem close_opened (e : Expr) : ∀ stack : List Frame,
    close (e.opened stack).1 (e.opened stack).2 = close stack e := by
  induction e with
  | unary op e ih => intro stack; rw [opened, ih, close]
  | binary l op r _ ih => intro stack; rw [opened, ih, close]
  | conditional c t e _ _ ih => intro stack; rw [opened, ih, close]
  | literal _ | grouping _ _ | absent | bare _ => intro stack; rfl

/-- **An operator folds a tree that may stand to its left as a whole.** -/
theorem fold_opened {n : Nat} {e : Expr} (he : e.Shaped) (hn : LeftOf n e) :
    ∀ stack : List Frame, fold n (e.opened stack).1 (e.opened stack).2 = fold n stack e := by
  induction e with
  | unary op e ih =>
    intro stack
    obtain ⟨-, hlevel, he⟩ := he
    rw [opened, ih he ⟨Nat.le_trans hn.1 hlevel, hn.2⟩, fold]
  | binary l op r _ ih =>
    intro stack
    obtain ⟨m, hop, -, hr, -, hright⟩ := shaped_binary_iff.mp he
    have hnm : n ≤ m := by
      rw [← level_binary hop l r]
      exact hn.1
    have hrn : LeftOf n r := by
      refine ⟨?_, hn.2⟩
      rcases hright with h | ⟨-, h⟩
      · exact Nat.le_of_lt (Nat.lt_of_le_of_lt hnm h)
      · -- a conditional to the right of a comma would end in a branch
        have hend : r.endsInBranch = false := hn.2
        cases r <;> simp [isConditional, endsInBranch] at h hend
    rw [opened, hop, Option.getD_some, ih hr hrn, fold, if_pos hnm]
  | conditional c t e => exact absurd hn.2 (by simp [endsInBranch])
  | literal _ | grouping _ _ | absent | bare _ => intro stack; rfl

end Expr

namespace Parser

open LoxCalc.Expr

/-! ### What fits a stack -/

theorem stopsAt_of_takes_binary {stack : List Frame} {l r : Expr} {op : Token} {n : Nat}
    (h : Takes stack (.binary l op r)) (hop : op.kind.level? = some n) : StopsAt n stack := by
  cases stack with
  | nil => trivial
  | cons frame stack =>
    cases frame with
    | sign _ =>
      rw [Takes, level_binary hop] at h
      exact absurd (level_lt_operandLevel hop) (Nat.not_lt.mpr h)
    | infixed m _ _ =>
      rcases h with h | ⟨-, h⟩
      · rwa [level_binary hop] at h
      · exact absurd h (by simp [isConditional])
    | group | thenBranch _ | elseBranch _ _ => trivial

theorem stopsAt_of_takes_conditional {stack : List Frame} {c t e : Expr}
    (h : Takes stack (.conditional c t e)) : StopsAt conditionLevel stack := by
  cases stack with
  | nil => trivial
  | cons frame stack =>
    cases frame with
    | sign _ => exact absurd h (by simp [Takes, level, operandLevel])
    | infixed m _ _ =>
      rcases h with h | ⟨h, -⟩
      · exact absurd h (Nat.not_lt_zero _)
      · subst h
        exact Nat.one_pos
    | group | thenBranch _ | elseBranch _ _ => trivial

/-- Where folding at a level stops, every tree of that level fits. -/
theorem takes_of_stopsAt {stack : List Frame} {n : Nat} {e : Expr} (h : StopsAt n stack)
    (he : n ≤ e.level) : Takes stack e := by
  cases stack with
  | nil => trivial
  | cons frame stack =>
    cases frame with
    | sign _ => exact h.elim
    | infixed m _ _ => exact Or.inl (Nat.lt_of_lt_of_le h he)
    | group | thenBranch _ | elseBranch _ _ => trivial

theorem fold_of_stopsAt {stack : List Frame} {n : Nat} (h : StopsAt n stack) (e : Expr) :
    fold n stack e = (stack, e) := by
  cases stack with
  | nil => rfl
  | cons frame stack =>
    cases frame with
    | sign _ => exact h.elim
    | infixed m _ _ => rw [fold, if_neg (Nat.not_le.mpr h)]
    | group | thenBranch _ | elseBranch _ _ => rfl

namespace Phase

/-! ### Single steps after a tree -/

theorem step_binary {stack : List Frame} {e : Expr} {op : Token} {n : Nat} (he : e.Shaped)
    (hn : LeftOf n e) (hstop : StopsAt n stack) (hop : op.kind.level? = some n) :
    step (.operator (e.opened stack).1 (e.opened stack).2) op =
      .ok (.operand (.infixed n e op :: stack)) := by
  rw [step, consume, afterOperand, hop]
  simp only [fold_opened he hn, fold_of_stopsAt hstop]

theorem step_question {stack : List Frame} {e : Expr} {t : Token} (he : e.Shaped)
    (hlevel : conditionLevel ≤ e.level) (hstop : StopsAt conditionLevel stack)
    (ht : t.kind = .question) :
    step (.operator (e.opened stack).1 (e.opened stack).2) t =
      .ok (.operand (.thenBranch e :: stack)) := by
  have hn : LeftOf conditionLevel e := ⟨hlevel, endsInBranch_of_level he hlevel⟩
  rw [step, consume, afterOperand, ht]
  simp only [Kind.level?, fold_opened he hn, fold_of_stopsAt hstop, if_true]

theorem close_thenBranch (c : Expr) (stack : List Frame) (e : Expr) :
    close (.thenBranch c :: stack) e = (.thenBranch c :: stack, e) := rfl

theorem close_group (stack : List Frame) (e : Expr) :
    close (.group :: stack) e = (.group :: stack, e) := rfl

theorem step_colon {stack : List Frame} {c e : Expr} {t : Token} (ht : t.kind = .colon) :
    step (.operator (e.opened (.thenBranch c :: stack)).1 (e.opened (.thenBranch c :: stack)).2) t =
      .ok (.operand (.elseBranch c e :: stack)) := by
  rw [step, consume, ht, afterOperand, endOperand.eq_def, close_opened, close_thenBranch]
  rfl

theorem step_rightParen {stack : List Frame} {e : Expr} {t : Token} (ht : t.kind = .rightParen) :
    step (.operator (e.opened (.group :: stack)).1 (e.opened (.group :: stack)).2) t =
      .ok (.operator stack (.grouping e)) := by
  rw [step, consume, ht, afterOperand, endOperand.eq_def, close_opened, close_group]
  rfl

/-! ### A whole tree -/

/-- **Reading the tokens of a shaped tree lays it open.** -/
theorem run_of_shaped {e : Expr} (he : e.Shaped) : ∀ {stack : List Frame} {tokens : List Token},
    Takes stack e → tokens.map Token.mark = e.marks →
      (operand stack).run tokens = .ok (.operator (e.opened stack).1 (e.opened stack).2) := by
  induction e with
  | literal v =>
    intro stack tokens _ hmarks
    obtain ⟨t, rfl, ht⟩ := split_literal hmarks
    exact run_cons (p := .operand stack) (Token.beginOperand_of_mark ht stack) []
  | grouping e ih =>
    intro stack tokens _ hmarks
    obtain ⟨l, inner, r, rfl, hl, hinner, hr⟩ := split_grouping hmarks
    have hopen : step (.operand stack) l = .ok (.operand (.group :: stack)) := by
      rw [step, consume, Token.kind_of_mark_plain hl, beginOperand]
    rw [run_cons hopen, run_append (ih he (by trivial) hinner)]
    exact run_cons (step_rightParen (Token.kind_of_mark_plain hr)) []
  | unary op e ih =>
    intro stack tokens _ hmarks
    obtain ⟨t, ts, rfl, ht, hts⟩ := split_unary hmarks
    obtain rfl := Token.eq_of_mark_operator ht
    obtain ⟨hop, hlevel, he⟩ := he
    have hsign : step (.operand stack) t = .ok (.operand (.sign t :: stack)) := by
      rcases hop with hop | hop <;> rw [step, consume, hop, beginOperand]
    have htakes : Takes (.sign t :: stack) e := hlevel
    rw [run_cons hsign, ih he htakes hts, Expr.opened]
  | binary l op r ihl ihr =>
    intro stack tokens htakes hmarks
    obtain ⟨n, hop, hl, hr, hfit, hright⟩ := shaped_binary_iff.mp he
    obtain ⟨left, t, ts, rfl, hleft, ht, hts⟩ := split_binary hmarks
    obtain rfl := Token.eq_of_mark_operator ht
    have hstop := stopsAt_of_takes_binary htakes hop
    have hinner : Takes (.infixed n l t :: stack) r := hright
    rw [run_append (ihl hl (takes_of_stopsAt hstop hfit.1) hleft),
      run_cons (step_binary hl hfit hstop hop), ihr hr hinner hts, Expr.opened, hop,
      Option.getD_some]
  | conditional c t e ihc iht ihe =>
    intro stack tokens htakes hmarks
    obtain ⟨hc, hlevel, ht, he⟩ := he
    obtain ⟨cond, q, branch, k, ts, rfl, hcond, hq, hbranch, hk, hts⟩ := split_conditional hmarks
    have hstop := stopsAt_of_takes_conditional htakes
    rw [run_append (ihc hc (takes_of_stopsAt hstop hlevel) hcond),
      run_cons (step_question hc hlevel hstop (Token.kind_of_mark_plain hq)),
      run_append (iht ht (by trivial) hbranch),
      run_cons (step_colon (Token.kind_of_mark_plain hk)), ihe he (by trivial) hts, Expr.opened]
  | absent | bare _ => exact he.elim

/-- **A run over the tokens of a shaped tree ends in this tree.** -/
theorem finish_of_shaped {e : Expr} (he : e.Shaped) {tokens : List Token}
    (hmarks : tokens.map Token.mark = e.marks) :
    ∃ q, initial.run tokens = .ok q ∧ q.finish = .ok e := by
  have htakes : Takes [] e := trivial
  refine ⟨_, run_of_shaped he htakes hmarks, ?_⟩
  rw [finish, close_opened, close]
  all_goals simp

end Phase

/-! ### What a parser accepts -/

theorem parse_eq_ok_iff_read {a : Allowance Opening} {s : TokenStream} {e : Expr} :
    ((ofStream s).parse a).1 = .ok e ↔ (read a .initial s.body).result = .ok e := by
  show ((ofStream s).parse a).1 = .ok e ↔ (read a .initial (ofStream s).rest).result = .ok e
  rw [parse_eq]
  cases (read a .initial (ofStream s).rest).result with
  | ok tree => exact ⟨fun h => Except.ok.inj h ▸ rfl, fun h => Except.ok.inj h ▸ rfl⟩
  | error halt => exact ⟨nofun, nofun⟩

/-- **What a parser accepts.**  Tokens that are not nested too deeply are parsed to
a tree exactly if it is the shaped reading of the tokens before the first end of
input; in particular there is at most one. -/
theorem parse_eq_ok_iff_reading {a : Allowance Opening} {tokens : List Token}
    (hend : tokens.getLast?.map Token.kind = some .eof)
    (htyped : ∀ t ∈ tokens, t.LiteralTyped)
    (hnest : a.covers (nesting a.cost (tokens.takeWhile (·.kind ≠ .eof))) = true) :
    ∃ s, TokenStream.ofTokens? tokens = some s ∧
      ∀ e : Expr, ((ofStream s).parse a).1 = .ok e ↔
        e.marks = (tokens.takeWhile (·.kind ≠ .eof)).map Token.mark ∧ e.Shaped := by
  obtain ⟨s, hs, hbody, -⟩ := TokenStream.ofTokens?_of_getLast? hend
  refine ⟨s, hs, fun e => ?_⟩
  rw [parse_eq_ok_iff_read, hbody, read_eq_ok_iff hnest]
  constructor
  · rintro ⟨q, hrun, hfinish⟩
    exact Phase.finish_sound (fun t ht => htyped t ((List.takeWhile_sublist _).mem ht)) hrun hfinish
  · rintro ⟨hmarks, hshaped⟩
    exact Phase.finish_of_shaped hshaped hmarks.symm

/-- The tokens of `1 ? 2 : 3, 4`, and one behind the first end of input. -/
def commaAfterBranch : List Token :=
  [⟨.number, "1", .number (.ofBits 0x3FF0000000000000), 1⟩, .operator .question 1,
    ⟨.number, "2", .number (.ofBits 0x4000000000000000), 1⟩, .operator .colon 1,
    ⟨.number, "3", .number (.ofBits 0x4008000000000000), 2⟩, .operator .comma 2,
    ⟨.number, "4", .number (.ofBits 0x4010000000000000), 2⟩, .endOfInput 2,
    .operator .plus 2, .endOfInput 2]

theorem parse_commaAfterBranch :
    commaAfterBranch.getLast?.map Token.kind = some .eof ∧
      (∀ t ∈ commaAfterBranch, t.LiteralTyped) ∧
      Limits.standard.parsing.covers
          (nesting Limits.standard.parsing.cost
            (commaAfterBranch.takeWhile (·.kind ≠ .eof))) = true ∧
      ∃ s, TokenStream.ofTokens? commaAfterBranch = some s ∧
        ∀ e : Expr, ((ofStream s).parse Limits.standard.parsing).1 = .ok e ↔
          e.marks = (commaAfterBranch.takeWhile (·.kind ≠ .eof)).map Token.mark ∧ e.Shaped := by
  have hend : commaAfterBranch.getLast?.map Token.kind = some .eof := by decide
  have htyped : ∀ t ∈ commaAfterBranch, t.LiteralTyped := by decide
  have hnest : Limits.standard.parsing.covers
      (nesting Limits.standard.parsing.cost
        (commaAfterBranch.takeWhile (·.kind ≠ .eof))) = true := by decide
  exact ⟨hend, htyped, hnest, parse_eq_ok_iff_reading hend htyped hnest⟩

end Parser

end LoxCalc
