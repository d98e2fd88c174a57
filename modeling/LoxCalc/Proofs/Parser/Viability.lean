import LoxCalc.Proofs.Grammar.Sentence
import LoxCalc.Proofs.Parser.Completeness

/-!
# What a parse can still become

The outline of a phase forgets the trees and keeps what is open.  **A step of a
parse is a step of its outline** (`outline_step`): the one is refused exactly when
the other is, and the cause can be read off the outline (`cause_of_refused`).

The outlines are those of the documented grammar.  `sentence_iff` says that a
text is a sentence exactly if its outline is complete, and `viable_iff` that it is
the beginning of one exactly if it has an outline at all.  The way back from an
outline to a derivation leads over the parser: it builds a shaped tree, and a
shaped tree is a derivation (`derives_of_shaped`).
-/

namespace LoxCalc

open LoxCalc.Parser LoxCalc.Expr

/-! ### A shaped tree is a derivation -/

def Nonterminal.ofLevel : Nat → Nonterminal
  | 0 => .comma
  | 1 => .equality
  | 2 => .comparison
  | 3 => .addition
  | 4 => .multiplication
  | _ => .unary

/-- The tightest nonterminal for a tree. -/
def Expr.category (e : Expr) : Nonterminal :=
  if e.isConditional then .ternary else .ofLevel e.level

theorem Kind.isLiteral_of_mark {t : Token} {v : Value} (h : t.mark = .literal v.tokenKind? v) :
    t.kind.isLiteral = true := by
  unfold Token.mark at h
  split at h <;> simp at h <;> rename_i hk <;> rw [hk] <;> rfl

theorem Nonterminal.chain?_of_level {op : Kind} {n : Nat} (h : op.level? = some n) :
    ∃ ops, op ∈ ops ∧
      (ofLevel n).chain? = some (ops, if n = 0 then .ternary else ofLevel (n + 1)) := by
  cases op <;> simp [Kind.level?] at h <;> subst h <;> exact ⟨_, by simp, rfl⟩

namespace Derives

theorem ofLevel_of_le {m n : Nat} {w : List Kind} (hm : conditionLevel ≤ m) (hmn : m ≤ n)
    (h : Derives (.ofLevel n) w) : Derives (.ofLevel m) w := by
  induction n with
  | zero => exact absurd (Nat.le_trans hm hmn) (by decide)
  | succ n ih =>
    rcases Nat.lt_or_eq_of_le hmn with hlt | rfl
    · refine ih (Nat.le_of_lt_succ hlt) ?_
      have hn : 1 ≤ n := Nat.le_trans hm (Nat.le_of_lt_succ hlt)
      match n with
      | 1 | 2 | 3 | 4 => exact Derives.operand rfl h
      | n + 5 => exact h
    · exact h

theorem ofLevel_of_category {e : Expr} {n : Nat} {w : List Kind} (h : Derives e.category w)
    (hn : conditionLevel ≤ n) (hle : n ≤ e.level) : Derives (.ofLevel n) w := by
  have hcond : e.isConditional = false := by
    cases e with
    | conditional c t f => exact absurd (Nat.le_trans hn hle) (Nat.not_succ_le_zero 0)
    | literal _ | grouping _ | unary _ _ | binary _ _ _ | absent | bare _ => rfl
  rw [category, hcond] at h
  exact h.ofLevel_of_le hn hle

theorem ternary_of_category {e : Expr} {w : List Kind} (h : Derives e.category w)
    (hright : RightOf 0 e) : Derives .ternary w := by
  rcases hright with hlevel | ⟨-, hcond⟩
  · exact .condition (h.ofLevel_of_category (Nat.le_refl 1) hlevel)
  · rwa [category, hcond] at h

theorem comma_of_category {e : Expr} {w : List Kind} (h : Derives e.category w) :
    Derives .comma w := by
  by_cases hlevel : 0 < e.level
  · exact .operand rfl (h.ternary_of_category (Or.inl hlevel))
  · by_cases hcond : e.isConditional = true
    · exact .operand rfl (h.ternary_of_category (Or.inr ⟨rfl, hcond⟩))
    · rw [category, if_neg hcond, Nat.eq_zero_of_not_pos hlevel] at h
      exact h

theorem unary_of_category {e : Expr} {w : List Kind} (h : Derives e.category w)
    (hlevel : operandLevel ≤ e.level) : Derives .unary w :=
  h.ofLevel_of_category (n := operandLevel) (by decide) hlevel

end Derives

/-- **The tokens of a shaped tree are derived from the nonterminal of the tree.** -/
theorem derives_of_shaped {e : Expr} (he : e.Shaped) : ∀ {tokens : List Token},
    tokens.map Token.mark = e.marks → Derives e.category (tokens.map Token.kind) := by
  induction e with
  | literal v =>
    intro tokens hmarks
    obtain ⟨t, rfl, ht⟩ := split_literal hmarks
    exact .primary (.literal (Kind.isLiteral_of_mark ht))
  | grouping e ih =>
    intro tokens hmarks
    obtain ⟨l, inner, r, rfl, hl, hinner, hr⟩ := split_grouping hmarks
    rw [List.map_cons, List.map_append, List.map_singleton, Token.kind_of_mark_plain hl,
      Token.kind_of_mark_plain hr]
    exact .primary (.group (.expression (ih he hinner).comma_of_category))
  | unary op e ih =>
    intro tokens hmarks
    obtain ⟨t, ts, rfl, ht, hts⟩ := split_unary hmarks
    obtain rfl := Token.eq_of_mark_operator ht
    obtain ⟨hop, hlevel, he⟩ := he
    exact .sign hop ((ih he hts).unary_of_category hlevel)
  | binary l op r ihl ihr =>
    intro tokens hmarks
    obtain ⟨n, hop, hl, hr, hfit, hright⟩ := shaped_binary_iff.mp he
    obtain ⟨left, t, ts, rfl, hleft, ht, hts⟩ := split_binary hmarks
    obtain rfl := Token.eq_of_mark_operator ht
    obtain ⟨ops, hmem, hchain⟩ := Nonterminal.chain?_of_level hop
    have hcat : (binary l t r).category = .ofLevel n := by
      rw [category, level_binary hop]
      rfl
    rw [hcat, List.map_append, List.map_cons]
    cases n with
    | zero =>
      exact .chain hchain hmem (ihl hl hleft).comma_of_category
        ((ihr hr hts).ternary_of_category hright)
    | succ n =>
      have hlt : n + 1 < r.level := hright.resolve_right (by simp)
      exact .chain hchain hmem
        ((ihl hl hleft).ofLevel_of_category (Nat.le_add_left 1 n) hfit.1)
        ((ihr hr hts).ofLevel_of_category (Nat.le_add_left 1 (n + 1)) hlt)
  | conditional c t e ihc iht ihe =>
    intro tokens hmarks
    obtain ⟨hc, hlevel, ht, he⟩ := he
    obtain ⟨cond, q, branch, k, ts, rfl, hcond, hq, hbranch, hk, hts⟩ := split_conditional hmarks
    rw [List.map_append, List.map_cons, List.map_append, List.map_cons,
      Token.kind_of_mark_plain hq, Token.kind_of_mark_plain hk]
    exact .conditional ((ihc hc hcond).ofLevel_of_category (Nat.le_refl 1) hlevel)
      (.expression (iht ht hbranch).comma_of_category)
      (.expression (ihe he hts).comma_of_category)
  | absent | bare _ => exact he.elim

namespace Parser

/-! ### Outlines of phases -/

def Frame.bracket? : Frame → Option Bracket
  | .group => some .paren
  | .thenBranch _ => some .question
  | _ => none

def pending (stack : List Frame) : List Bracket :=
  stack.filterMap Frame.bracket?

theorem pending_fold (n : Nat) : ∀ (stack : List Frame) (e : Expr),
    pending (fold n stack e).1 = pending stack := by
  intro stack
  induction stack with
  | nil => intro e; rfl
  | cons frame stack ih =>
    intro e
    cases frame with
    | sign op => rw [fold, ih]; rfl
    | infixed l left op =>
      rw [fold]
      split
      · rw [ih]; rfl
      · rfl
    | group | thenBranch _ | elseBranch _ _ => rfl

theorem pending_close : ∀ (stack : List Frame) (e : Expr),
    pending (close stack e).1 = pending stack := by
  intro stack
  induction stack with
  | nil => intro e; rfl
  | cons frame stack ih =>
    intro e
    cases frame with
    | sign op => rw [close, ih]; rfl
    | infixed l left op => rw [close, ih]; rfl
    | elseBranch c t => rw [close, ih]; rfl
    | group | thenBranch _ => rfl

namespace Phase

def outline : Phase → Outline
  | .operand stack => ⟨true, pending stack⟩
  | .operator stack _ => ⟨false, pending stack⟩

theorem close_cases (stack : List Frame) (e : Expr) :
    (pending stack = [] ∧ ∃ f, close stack e = ([], f)) ∨
      (∃ rest f, pending stack = .paren :: pending rest ∧
        close stack e = (.group :: rest, f)) ∨
      (∃ c rest f, pending stack = .question :: pending rest ∧
        close stack e = (.thenBranch c :: rest, f)) := by
  rw [← pending_close stack e]
  have hwaits := waits_close stack e
  generalize close stack e = closed at hwaits ⊢
  obtain ⟨closed, f⟩ := closed
  cases closed with
  | nil => exact Or.inl ⟨rfl, f, rfl⟩
  | cons frame rest =>
    cases frame with
    | group => exact Or.inr (Or.inl ⟨rest, f, rfl, rfl⟩)
    | thenBranch c => exact Or.inr (Or.inr ⟨c, rest, f, rfl, rfl⟩)
    | sign _ | infixed _ _ _ | elseBranch _ _ => exact hwaits.elim

theorem outline_beginOperand (stack : List Frame) (t : Token) :
    (beginOperand stack t.kind t).toOption.map outline =
      Outline.step? (outline (.operand stack)) t.kind := by
  unfold beginOperand
  cases t.kind <;> rfl

theorem outline_endOperand (stack : List Frame) (e : Expr) {t : Token}
    (hlevel : t.kind.level? = none) (hquestion : t.kind ≠ .question) :
    (endOperand stack e t.kind).toOption.map outline =
      Outline.step? (outline (.operator stack e)) t.kind := by
  rw [endOperand.eq_def, outline]
  obtain ⟨hp, f, hc⟩ | ⟨rest, f, hp, hc⟩ | ⟨c, rest, f, hp, hc⟩ := close_cases stack e
  all_goals
    rw [hp, hc]
    cases hk : t.kind <;> first
      | rfl
      | (rw [hk] at hlevel; exact absurd hlevel (by decide))
      | exact absurd hk hquestion

theorem outline_afterOperand (stack : List Frame) (e : Expr) (t : Token) :
    (afterOperand stack e t.kind t).toOption.map outline =
      Outline.step? (outline (.operator stack e)) t.kind := by
  cases hlevel : t.kind.level? with
  | some n =>
    have hstep : Outline.step? ⟨false, pending stack⟩ t.kind = some ⟨true, pending stack⟩ := by
      obtain ⟨ops, hop, hchain⟩ := Nonterminal.chain?_of_level hlevel
      exact Outline.step?_operator hchain hop _
    have hpending : pending (.infixed n (fold n stack e).2 t :: (fold n stack e).1) =
        pending stack := pending_fold n stack e
    rw [afterOperand, hlevel]
    show some (outline _) = _
    rw [outline, hpending]
    exact hstep.symm
  | none =>
    rw [afterOperand, hlevel]
    by_cases hquestion : t.kind = .question
    · have hpending : pending (.thenBranch (fold conditionLevel stack e).2 ::
          (fold conditionLevel stack e).1) = .question :: pending stack := by
        show Bracket.question :: pending _ = _
        rw [pending_fold]
      simp only [if_pos hquestion]
      show some (outline _) = _
      rw [outline, hpending, hquestion]
      rfl
    · simp only [if_neg hquestion]
      exact outline_endOperand stack e hlevel hquestion

/-- **A step is a step of the outline.** -/
theorem outline_step (p : Phase) (t : Token) :
    (p.step t).toOption.map outline = p.outline.step? t.kind := by
  cases p with
  | operand stack => exact outline_beginOperand stack t
  | operator stack e => exact outline_afterOperand stack e t

theorem outline_of_step {p q : Phase} {t : Token} (h : p.step t = .ok q) :
    p.outline.step? t.kind = some q.outline := by
  rw [← outline_step, h]
  rfl

theorem outline_of_refused {p : Phase} {t : Token} {cause : SyntaxError.Cause}
    (h : p.step t = .error cause) : p.outline.step? t.kind = none := by
  rw [← outline_step, h]
  rfl

/-- **A run is a run of the outline.** -/
theorem outline_run (p : Phase) (tokens : List Token) :
    (p.run tokens).toOption.map outline = p.outline.run? (tokens.map Token.kind) := by
  induction tokens generalizing p with
  | nil => rfl
  | cons t ts ih =>
    rw [List.map_cons, Outline.run?, run]
    cases h : p.step t with
    | ok q => rw [outline_of_step h, Option.bind_some]; exact ih q
    | error cause => rw [outline_of_refused h]; rfl

theorem outline_of_run {p q : Phase} {tokens : List Token} (h : p.run tokens = .ok q) :
    p.outline.run? (tokens.map Token.kind) = some q.outline := by
  rw [← outline_run, h]
  rfl

/-! ### Causes -/

end Phase

end Parser

/-- What is missing after the beginning of a sentence, if the next token does not
go on with it. -/
def Outline.cause : Outline → SyntaxError.Cause
  | ⟨true, _⟩ => .expectExpression
  | ⟨false, .paren :: _⟩ => .expectRightParen
  | ⟨false, .question :: _⟩ => .expectColon
  | ⟨false, []⟩ => .expectEnd

namespace Parser

namespace Phase

theorem unmet_of_endOperand {stack : List Frame} {e : Expr} {t : Token}
    {cause : SyntaxError.Cause} (h : endOperand stack e t.kind = .error cause) :
    cause = unmet (close stack e).1 := by
  unfold endOperand at h
  split at h
  · cases h
  · cases h
  · rename_i hc _ _
    cases h
    rw [hc]

theorem unmet_close (stack : List Frame) (e : Expr) :
    unmet (close stack e).1 = Outline.cause ⟨false, pending stack⟩ := by
  obtain ⟨hp, f, hc⟩ | ⟨rest, f, hp, hc⟩ | ⟨c, rest, f, hp, hc⟩ := close_cases stack e <;>
    rw [hp, hc] <;> rfl

/-- **The cause of a refusal** is what the outline misses. -/
theorem cause_of_refused {p : Phase} {t : Token} {cause : SyntaxError.Cause}
    (h : p.step t = .error cause) : cause = p.outline.cause := by
  cases p with
  | operand stack =>
    rw [step, consume] at h
    unfold beginOperand at h
    split at h <;> cases h
    rfl
  | operator stack e =>
    rw [step, consume] at h
    unfold afterOperand at h
    split at h
    · cases h
    · split at h
      · cases h
      · rw [unmet_of_endOperand h, unmet_close, outline]

/-- **A parse is finished exactly if its outline is complete.** -/
theorem finish_cases (p : Phase) :
    (p.outline = .complete ∧ ∃ e, p.finish = .ok e) ∨
      (p.outline ≠ .complete ∧ p.finish = .error p.outline.cause) := by
  cases p with
  | operand stack => exact Or.inr ⟨by simp [outline, Outline.complete], rfl⟩
  | operator stack e =>
    rw [outline, finish]
    obtain ⟨hp, f, hc⟩ | ⟨rest, f, hp, hc⟩ | ⟨c, rest, f, hp, hc⟩ := close_cases stack e
    · rw [hp, hc]
      exact Or.inl ⟨rfl, f, rfl⟩
    · rw [hp, hc]
      exact Or.inr ⟨by simp [Outline.complete], rfl⟩
    · rw [hp, hc]
      exact Or.inr ⟨by simp [Outline.complete], rfl⟩

end Phase

end Parser

/-! ### Outlines and sentences -/

/-- A token of a kind; if the kind carries a value, it has one. -/
def Token.ofKind (k : Kind) : Token :=
  match k with
  | .number => ⟨k, "", .number .nan, 0⟩
  | .string => ⟨k, "", .string "", 0⟩
  | _ => ⟨k, "", .nil, 0⟩

theorem Token.kind_ofKind (k : Kind) : (ofKind k).kind = k := by
  cases k <;> rfl

theorem Token.literalTyped_ofKind (k : Kind) : (ofKind k).LiteralTyped := by
  cases k <;> decide

theorem Token.map_kind_ofKind (ks : List Kind) : (ks.map ofKind).map Token.kind = ks := by
  rw [List.map_map]
  exact (List.map_congr_left fun k _ => kind_ofKind k).trans (List.map_id ks)

/-- **The sentences** are the texts with a complete outline. -/
theorem sentence_iff {ks : List Kind} :
    Sentence ks ↔ Outline.initial.run? ks = some .complete := by
  refine ⟨Sentence.run, fun h => ?_⟩
  -- the parser builds the tree whose shape is the derivation
  have hrun := Phase.outline_run .initial (ks.map Token.ofKind)
  rw [Token.map_kind_ofKind, show Phase.initial.outline = Outline.initial from rfl, h] at hrun
  cases hq : Phase.initial.run (ks.map Token.ofKind) with
  | error cause => rw [hq] at hrun; cases hrun
  | ok q =>
    rw [hq] at hrun
    have hout : q.outline = .complete := Option.some.inj hrun
    obtain ⟨-, e, he⟩ := q.finish_cases.resolve_right fun hne => hne.1 hout
    have htyped : ∀ t ∈ ks.map Token.ofKind, t.LiteralTyped := by
      intro t ht
      obtain ⟨k, -, rfl⟩ := List.mem_map.mp ht
      exact Token.literalTyped_ofKind k
    obtain ⟨hmarks, hshaped⟩ := Phase.finish_sound htyped hq he
    have hd := derives_of_shaped hshaped hmarks.symm
    rw [Token.map_kind_ofKind] at hd
    exact .expression hd.comma_of_category

/-- **The beginnings of sentences** are the texts with an outline. -/
theorem viable_iff {ks : List Kind} : Viable ks ↔ ∃ o, Outline.initial.run? ks = some o := by
  refine ⟨Viable.run, fun ⟨o, ho⟩ => ?_⟩
  obtain ⟨vs, hvs⟩ := o.exists_complete
  exact ⟨vs, sentence_iff.mpr (by rw [Outline.run?_append_of ho, hvs])⟩

end LoxCalc
