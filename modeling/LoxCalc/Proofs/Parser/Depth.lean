import LoxCalc.Proofs.Expr.Lines
import LoxCalc.Proofs.Nesting.Walks
import LoxCalc.Proofs.Parser.Completeness

/-!
# How deep a parse becomes

A parse holds a frame for every group, prefix operator and branch that it is inside of, so how
deep it becomes can be told from the tree.  `Expr.parseDepth` says it: the dearest way from the
root to a leaf, where a binary operation costs nothing.

**The tokens of a shaped tree are nested exactly so deeply** (`nesting_of_shaped`), and a parse
that is not given as much is stopped.  The proof goes along the tree as
`run_of_shaped` does, which tells what the stack is between two operands.

* `Phase.peak_append`: the depth of two stretches of tokens.
* `parse_of_shaped`: a parse of the tokens of a shaped tree, within a bound or not.
-/

namespace LoxCalc

namespace Expr

variable (cost : Parser.Opening → Nat)

/-- The depth that a parse reaches inside a tree. -/
def parseDepth : Expr → Nat
  | .literal _ => 0
  | .grouping e => cost .group + e.parseDepth
  | .unary _ e => cost .sign + e.parseDepth
  | .binary l _ r => max l.parseDepth r.parseDepth
  | .conditional c t e => max c.parseDepth (cost .branch + max t.parseDepth e.parseDepth)
  | .absent | .bare _ => 0

theorem parseDepth_unlined (e : Expr) : e.unlined.parseDepth cost = e.parseDepth cost := by
  induction e with
  | grouping e ih => rw [unlined, parseDepth, parseDepth, ih]
  | unary op e ih => rw [unlined, parseDepth, parseDepth, ih]
  | binary l op r ihl ihr => rw [unlined, parseDepth, parseDepth, ihl, ihr]
  | conditional c t e ihc iht ihe => rw [unlined, parseDepth, parseDepth, ihc, iht, ihe]
  | literal _ | absent | bare _ => rfl

end Expr

namespace Parser

open LoxCalc.Expr

variable {cost : Opening → Nat}

namespace Phase

theorem peak_cons {p q : Phase} {t : Token} (h : p.step t = .ok q) (ts : List Token) :
    p.peak cost (t :: ts) = max (depth cost q.stack) (q.peak cost ts) := by
  rw [peak, h]

/-- **Two stretches of tokens** are as deep as the deeper one of them. -/
theorem peak_append {xs : List Token} : ∀ {p q : Phase}, p.run xs = .ok q → ∀ ys : List Token,
    p.peak cost (xs ++ ys) = max (p.peak cost xs) (q.peak cost ys) := by
  induction xs with
  | nil =>
    intro p q h ys
    obtain rfl : p = q := Except.ok.inj h
    rw [List.nil_append, peak, Nat.zero_max]
  | cons t ts ih =>
    intro p q h ys
    rw [run] at h
    split at h
    · rename_i next hstep
      rw [List.cons_append, peak_cons hstep, peak_cons hstep, ih h, Nat.max_assoc]
    · cases h

/-- **The tokens of a shaped tree** make the stack deeper by the depth of the tree. -/
theorem peak_of_shaped {e : Expr} (he : e.Shaped) : ∀ {stack : List Frame} {tokens : List Token},
    Takes stack e → tokens.map Token.mark = e.marks →
      (operand stack).peak cost tokens = depth cost stack + e.parseDepth cost := by
  induction e with
  | literal v =>
    intro stack tokens _ hmarks
    obtain ⟨t, rfl, ht⟩ := split_literal hmarks
    rw [peak_cons (p := .operand stack) (Token.beginOperand_of_mark ht stack), peak, Nat.max_zero]
    rfl
  | grouping e ih =>
    intro stack tokens _ hmarks
    have he : e.Shaped := he
    obtain ⟨l, inner, r, rfl, hl, hinner, hr⟩ := split_grouping hmarks
    have hopen : step (.operand stack) l = .ok (.operand (.group :: stack)) := by
      rw [step, consume, Token.kind_of_mark_plain hl, beginOperand]
    have htakes : Takes (.group :: stack) e := trivial
    have hclose : step (.operator (e.opened (.group :: stack)).1 (e.opened (.group :: stack)).2) r =
        .ok (.operator stack (.grouping e)) := step_rightParen (Token.kind_of_mark_plain hr)
    rw [peak_cons hopen, peak_append (run_of_shaped he htakes hinner), ih he htakes hinner,
      peak_cons hclose]
    simp only [peak, Phase.stack, depth, Frame.cost, Frame.opening?, parseDepth]
    omega
  | unary op e ih =>
    intro stack tokens _ hmarks
    obtain ⟨t, ts, rfl, ht, hts⟩ := split_unary hmarks
    obtain rfl := Token.eq_of_mark_operator ht
    obtain ⟨hop, hlevel, he⟩ := he
    have hsign : step (.operand stack) t = .ok (.operand (.sign t :: stack)) := by
      rcases hop with hop | hop <;> rw [step, consume, hop, beginOperand]
    have htakes : Takes (.sign t :: stack) e := hlevel
    rw [peak_cons hsign, ih he htakes hts]
    simp only [Phase.stack, depth, Frame.cost, Frame.opening?, parseDepth]
    omega
  | binary l op r ihl ihr =>
    intro stack tokens htakes hmarks
    obtain ⟨n, hop, hl, hr, hfit, hright⟩ := shaped_binary_iff.mp he
    obtain ⟨left, t, ts, rfl, hleft, ht, hts⟩ := split_binary hmarks
    obtain rfl := Token.eq_of_mark_operator ht
    have hstop := stopsAt_of_takes_binary htakes hop
    have hleftTakes := takes_of_stopsAt hstop hfit.1
    have hrightTakes : Takes (.infixed n l t :: stack) r := hright
    rw [peak_append (run_of_shaped hl hleftTakes hleft), ihl hl hleftTakes hleft,
      peak_cons (step_binary hl hfit hstop hop), ihr hr hrightTakes hts]
    simp only [Phase.stack, depth, Frame.cost, Frame.opening?, parseDepth]
    omega
  | conditional c t e ihc iht ihe =>
    intro stack tokens htakes hmarks
    obtain ⟨hc, hlevel, ht, he⟩ := he
    obtain ⟨cond, q, branch, k, ts, rfl, hcond, hq, hbranch, hk, hts⟩ := split_conditional hmarks
    have hstop := stopsAt_of_takes_conditional htakes
    have hcondTakes := takes_of_stopsAt hstop hlevel
    have hthenTakes : Takes (.thenBranch c :: stack) t := trivial
    have helseTakes : Takes (.elseBranch c t :: stack) e := trivial
    rw [peak_append (run_of_shaped hc hcondTakes hcond), ihc hc hcondTakes hcond,
      peak_cons (step_question hc hlevel hstop (Token.kind_of_mark_plain hq)),
      peak_append (run_of_shaped ht hthenTakes hbranch), iht ht hthenTakes hbranch,
      peak_cons (step_colon (Token.kind_of_mark_plain hk)), ihe he helseTakes hts]
    simp only [Phase.stack, depth, Frame.cost, Frame.opening?, parseDepth]
    omega
  | absent | bare _ => exact he.elim

end Phase

/-- **The tokens of a shaped tree are nested as deeply as the tree.** -/
theorem nesting_of_shaped {e : Expr} (he : e.Shaped) {tokens : List Token}
    (hmarks : tokens.map Token.mark = e.marks) : nesting cost tokens = e.parseDepth cost := by
  have htakes : Takes [] e := trivial
  rw [nesting, Phase.initial, Phase.peak_of_shaped he htakes hmarks, depth, Nat.zero_add]

/-- **A parse of the tokens of a shaped tree** is stopped or gives the tree, as its depth is
outside or within the bound. -/
theorem parse_of_shaped {e : Expr} (he : e.Shaped) {s : TokenStream}
    (hmarks : s.body.map Token.mark = e.marks) (a : Allowance Opening) :
    (a.covers (e.parseDepth a.cost) = true → ((ofStream s).parse a).1 = .ok e) ∧
      ∀ {σ : Type} [Sink σ] (r : Reporter σ),
        StoppedParse r ((ofStream s).parse a, (ofStream s).parseReporting a r) ↔
          a.covers (e.parseDepth a.cost) = false := by
  obtain ⟨q, hrun, hfinish⟩ := Phase.finish_of_shaped he hmarks
  have hnesting : nesting a.cost s.body = e.parseDepth a.cost := nesting_of_shaped he hmarks
  have hread : a.covers (e.parseDepth a.cost) = true →
      (read a .initial s.body).result = .ok e := by
    intro hcovers
    rw [← hnesting] at hcovers
    exact (read_eq_ok_iff hcovers e).mpr ⟨q, hrun, hfinish⟩
  refine ⟨fun hcovers => parse_eq_ok_iff_read.mpr (hread hcovers), fun r => ?_⟩
  rw [← hnesting]
  exact stoppedParse_iff

end Parser

end LoxCalc
