import LoxCalc.Proofs.Expr.Anchor
import LoxCalc.Proofs.Expr.RoundTrip
import LoxCalc.Proofs.Parser.Depth
import LoxCalc.Proofs.Script.WrittenTrees

/-!
# Renderings and the nesting limit

The infix form of a tree is source that reads as the tree again, but for groups.  The groups are
what a parse holds frames for: in a source a chain of operators costs nothing, however long it is,
and in its rendering there is a group for every operator.  **Whether a rendering is within the
limit of a parse is therefore told by the tree** (`Expr.rereadDepth`), and it does not follow from
the source being within it, nor from an evaluation or the printing being within theirs.

* `Expr.parseDepth_respelled`: the depth of a rendering.
* `Expr.parseDepth_le_rereadDepth`, `Expr.rereadDepth_le`: a rendering is no less deep than the
  source, and its depth has a bound in the levels of the tree.
* `Expr.infixForm_rereading`: which renderings are read again.
* `Expr.infixForm_sumOfOnes_refused`: a rendering that is not.
-/

namespace LoxCalc

namespace Expr

section Depth

variable (cost : Parser.Opening → Nat)

/-- The depth that a parse reaches in the infix form of a tree: every operation has a group. -/
def rereadDepth : Expr → Nat
  | .literal v => v.respelled.parseDepth cost
  | .grouping e => cost .group + e.rereadDepth
  | .unary _ e => cost .group + (cost .sign + e.rereadDepth)
  | .binary l _ r => cost .group + max l.rereadDepth r.rereadDepth
  | .conditional c t e =>
    cost .group + max c.rereadDepth (cost .branch + max t.rereadDepth e.rereadDepth)
  | .absent | .bare _ => 0

theorem parseDepth_respelled (e : Expr) : e.respelled.parseDepth cost = e.rereadDepth cost := by
  induction e with
  | literal v => rfl
  | grouping e ih => rw [respelled, parseDepth, rereadDepth, ih]
  | unary op e ih => rw [respelled, parseDepth, parseDepth, rereadDepth, ih]
  | binary l op r ihl ihr => rw [respelled, parseDepth, parseDepth, rereadDepth, ihl, ihr]
  | conditional c t e ihc iht ihe =>
    rw [respelled, parseDepth, parseDepth, rereadDepth, ihc, iht, ihe]
  | absent | bare _ => rfl

theorem parseDepth_le_rereadDepth (e : Expr) : e.parseDepth cost ≤ e.rereadDepth cost := by
  induction e with
  | literal v => exact Nat.zero_le _
  | grouping e ih => exact Nat.add_le_add_left ih _
  | unary op e ih =>
    rw [parseDepth, rereadDepth]
    omega
  | binary l op r ihl ihr =>
    rw [parseDepth, rereadDepth]
    omega
  | conditional c t e ihc iht ihe =>
    rw [parseDepth, rereadDepth]
    omega
  | absent | bare _ => exact Nat.le_refl _

def levels : Expr → Nat
  | .literal _ => 0
  | .grouping e => e.levels + 1
  | .unary _ e => e.levels + 1
  | .binary l _ r => max l.levels r.levels + 1
  | .conditional c t e => max c.levels (max t.levels e.levels) + 1
  | .absent | .bare _ => 0

def levelCost : Nat :=
  cost .group + max (cost .sign) (cost .branch)

/-- A literal is written as a division of a signed number at worst. -/
theorem parseDepth_respelled_literal_le (v : Value) :
    v.respelled.parseDepth cost ≤ cost .group + cost .sign := by
  unfold Value.respelled
  split <;> simp only [parseDepth] <;> omega

theorem rereadDepth_le (e : Expr) :
    e.rereadDepth cost ≤ e.levels * levelCost cost + (cost .group + cost .sign) := by
  have hcost : levelCost cost = cost .group + max (cost .sign) (cost .branch) := rfl
  have hmono : ∀ {m n : Nat}, m ≤ n → m * levelCost cost ≤ n * levelCost cost :=
    fun h => Nat.mul_le_mul_right _ h
  induction e with
  | literal v =>
    rw [levels, Nat.zero_mul, Nat.zero_add]
    exact parseDepth_respelled_literal_le cost v
  | grouping e ih =>
    rw [rereadDepth, levels, Nat.succ_mul]
    omega
  | unary op e ih =>
    rw [rereadDepth, levels, Nat.succ_mul]
    omega
  | binary l op r ihl ihr =>
    have hl := hmono (Nat.le_max_left l.levels r.levels)
    have hr := hmono (Nat.le_max_right l.levels r.levels)
    rw [rereadDepth, levels, Nat.succ_mul]
    omega
  | conditional c t e ihc iht ihe =>
    have hc := hmono (Nat.le_max_left c.levels (max t.levels e.levels))
    have hbranches := hmono (Nat.le_max_right c.levels (max t.levels e.levels))
    have ht := hmono (Nat.le_max_left t.levels e.levels)
    have he := hmono (Nat.le_max_right t.levels e.levels)
    rw [rereadDepth, levels, Nat.succ_mul]
    omega
  | absent | bare _ => exact Nat.zero_le _

/-- With the costs of the program, all frames of a parse are enough for 81 levels. -/
example : 81 * levelCost Limits.openingCost +
    (Limits.openingCost .group + Limits.openingCost .sign) = 982 := rfl

theorem rereadDepth_unlined (e : Expr) : e.unlined.rereadDepth cost = e.rereadDepth cost := by
  induction e with
  | grouping e ih => rw [unlined, rereadDepth, rereadDepth, ih]
  | unary op e ih => rw [unlined, rereadDepth, rereadDepth, ih]
  | binary l op r ihl ihr => rw [unlined, rereadDepth, rereadDepth, ihl, ihr]
  | conditional c t e ihc iht ihe => rw [unlined, rereadDepth, rereadDepth, ihc, iht, ihe]
  | literal _ | absent | bare _ => rfl

end Depth

end Expr

/-! ### Reading a rendering -/

namespace Scan

def ParseStopsIff (limits : Limits) (scan : Scan) (stopped : Prop) : Prop :=
  ∀ {σ : Type} [Sink σ] (r : Reporter σ),
    Parser.StoppedParse r
      (scan.parser.parse limits.parsing, scan.parser.parseReporting limits.parsing r) ↔ stopped

end Scan

/-- **A text that is read as a tree** has the tree up to lines, or is stopped, as the depth of the
tree is within the limit or outside. -/
theorem Rendered.parse_within {text : String} {e : Expr} (h : Rendered text.toList e)
    (he : e.Shaped) (limits : Limits) :
    (Scan.ofSource (.text text)).errors = [] ∧
      (Scan.ofSource (.text text)).ParseStopsIff limits
        (limits.parsing.covers (e.parseDepth limits.parsing.cost) = false) ∧
      (limits.parsing.covers (e.parseDepth limits.parsing.cost) = true →
        ∃ u, (Scan.ofSource (.text text)).tree? limits = some u ∧ u.unlined = e.unlined) := by
  obtain ⟨herrors, u, hshaped, hmarks, hu⟩ := h.scan he
  have hdepth : u.parseDepth limits.parsing.cost = e.parseDepth limits.parsing.cost := by
    rw [← Expr.parseDepth_unlined, hu, Expr.parseDepth_unlined]
  obtain ⟨hread, hstopped⟩ := Parser.parse_of_shaped hshaped
    (s := .ofScan (Scan.ofSource (.text text)))
    (by rw [Scan.body_ofScan_ofSource]; exact hmarks) limits.parsing
  rw [hdepth] at hread
  refine ⟨herrors, fun r => ?_, fun hcovers => ⟨u, ?_, hu⟩⟩
  · rw [← hdepth]
    exact hstopped r
  · rw [Scan.tree?, hread hcovers]
    rfl

theorem Expr.infixForm_of_unbounded {e : Expr} {a : Allowance Layer} {text other : String}
    (h : e.infixForm a = .ok text) (hother : e.infixForm a.unbounded = .ok other) :
    text = other := by
  rcases (e.bounded_infixForm a.cost).mono a.frames none trivial with heq | hstop
  · exact Except.ok.inj (h.symm.trans (heq.trans hother))
  · exact absurd (h.symm.trans hstop) nofun

theorem Expr.infixForm_parse_within {t : Expr} (ht : t.Writable) {limits : Limits} {text : String}
    (htext : t.infixForm limits.infixPrinting = .ok text) :
    (Scan.ofSource (.text text)).errors = [] ∧
      (Scan.ofSource (.text text)).ParseStopsIff limits
        (limits.parsing.covers (t.rereadDepth limits.parsing.cost) = false) ∧
      (limits.parsing.covers (t.rereadDepth limits.parsing.cost) = true →
        ∃ u, (Scan.ofSource (.text text)).tree? limits = some u ∧
          u.unlined = t.respelled.unlined) := by
  obtain ⟨other, hother, hrendered⟩ := rendered_infixForm limits.infixPrinting ht
  obtain rfl := infixForm_of_unbounded htext hother
  rw [← parseDepth_respelled]
  exact hrendered.parse_within (shaped_respelled ht.1) limits

/-- **Which renderings are read again.**  The infix form of the tree of a source has no lexical
error.  A parse of it is stopped for its depth if and only if the tree is too deep to be reread,
and otherwise it gives the respelled tree, up to lines.  The depth is at least that of the source,
and there is a bound for it in the levels of the tree. -/
theorem Expr.infixForm_rereading {limits : Limits} {source : Source} {t : Expr} {text : String}
    (htree : (Scan.ofSource source).tree? limits = some t)
    (htext : t.infixForm limits.infixPrinting = .ok text) :
    (Scan.ofSource (.text text)).errors = [] ∧
      (Scan.ofSource (.text text)).ParseStopsIff limits
        (limits.parsing.covers (t.rereadDepth limits.parsing.cost) = false) ∧
      (limits.parsing.covers (t.rereadDepth limits.parsing.cost) = true →
        ∃ u, (Scan.ofSource (.text text)).tree? limits = some u ∧
          u.unlined = t.respelled.unlined) ∧
      t.parseDepth limits.parsing.cost ≤ t.rereadDepth limits.parsing.cost ∧
      t.rereadDepth limits.parsing.cost ≤ t.levels * levelCost limits.parsing.cost +
        (limits.parsing.cost .group + limits.parsing.cost .sign) := by
  obtain ⟨herrors, hstops, hread⟩ :=
    infixForm_parse_within (Scan.writable_of_tree? htree) htext
  exact ⟨herrors, hstops, hread, t.parseDepth_le_rereadDepth _, t.rereadDepth_le _⟩

theorem ofSource_bangNil : Scan.ofSource (.text "!nil") =
    ⟨[.operator .bang 1, .operator .nilWord 1], [], 1⟩ := by
  have hnil : segments ('n' :: (['i', 'l'] ++ [])) = .word ['n', 'i', 'l'] :: segments [] :=
    segments_word rfl rfl (List.all_eq_true.mp rfl) trivial
  have hbang : segments ('!' :: ('n' :: (['i', 'l'] ++ []))) = .symbol .bang :: segments _ :=
    segments_bang rfl
  show Scan.ofSegments 1 (segments ('!' :: ('n' :: (['i', 'l'] ++ [])))) = _
  rw [hbang, hnil, segments]
  rfl

/-- The rendering of `!nil` is read again: it holds one group and one sign. -/
theorem Expr.infixForm_rereading_bangNil :
    (Scan.ofSource (.text "!nil")).tree? .standard =
        some (.unary (.operator .bang 1) (.literal .nil)) ∧
      (unary (.operator .bang 1) (.literal .nil)).infixForm Limits.standard.infixPrinting =
        .ok "(!nil)" ∧
      (Scan.ofSource (.text "(!nil)")).ParseStopsIff .standard False ∧
      ∃ u, (Scan.ofSource (.text "(!nil)")).tree? .standard = some u ∧
        u.unlined = .grouping (.unary (.operator .bang 0) (.literal .nil)) := by
  have htree : (Scan.ofSource (.text "!nil")).tree? .standard =
      some (.unary (.operator .bang 1) (.literal .nil)) := by
    rw [ofSource_bangNil, Scan.tree?_eq_read (by decide)]
    rfl
  have htext : (unary (.operator .bang 1) (.literal .nil)).infixForm
      Limits.standard.infixPrinting = .ok "(!nil)" := rfl
  obtain ⟨-, hstops, hread, -⟩ := infixForm_rereading htree htext
  exact ⟨htree, htext, fun r => (hstops r).trans (by decide), hread (by decide)⟩

/-! ### Long sums -/

def sumText : Nat → List Char
  | 0 => ['1']
  | n + 1 => sumText n ++ ['+', '1']

namespace Expr

theorem unlined_sumOfOnes (line : Int) (n : Nat) :
    (sumOfOnes line n).unlined = sumOfOnes 0 n := by
  induction n with
  | zero => rfl
  | succ n ih =>
    rw [sumOfOnes, unlined, ih]
    rfl

theorem shaped_sumOfOnes (line : Int) (n : Nat) : (sumOfOnes line n).Shaped := by
  induction n with
  | zero => trivial
  | succ n ih =>
    have hleft : LeftOf 3 (sumOfOnes line n) := by
      cases n with
      | zero => exact ⟨Nat.le_of_lt (level_lt_operandLevel (k := .plus) rfl), rfl⟩
      | succ n => exact ⟨Nat.le_refl _, rfl⟩
    exact shaped_binary_iff.mpr ⟨3, rfl, ih, trivial, hleft, Or.inl (by decide)⟩

theorem parseDepth_sumOfOnes (cost : Parser.Opening → Nat) (line : Int) (n : Nat) :
    (sumOfOnes line n).parseDepth cost = 0 := by
  induction n with
  | zero => rfl
  | succ n ih => rw [sumOfOnes, parseDepth, ih, parseDepth, Nat.max_self]

/-- **A sum in a rendering is as deep as it is long.** -/
theorem rereadDepth_sumOfOnes (cost : Parser.Opening → Nat) (line : Int) (n : Nat) :
    (sumOfOnes line n).rereadDepth cost = n * cost .group := by
  have hone : (literal (.number .one)).rereadDepth cost = 0 := rfl
  induction n with
  | zero => rw [Nat.zero_mul, sumOfOnes, hone]
  | succ n ih => rw [sumOfOnes, rereadDepth, ih, hone, Nat.max_zero, Nat.succ_mul, Nat.add_comm]

theorem exists_eval_sumOfOnes {cost : Layer → Nat} {places line : Int} {n : Nat} :
    ∀ {frames : Nat}, n * cost .binary ≤ frames →
      ∃ x, (sumOfOnes line n).eval places ⟨some frames, cost⟩ = .ok (.number x) := by
  induction n with
  | zero => exact fun _ => ⟨_, rfl⟩
  | succ n ih =>
    intro frames h
    rw [Nat.succ_mul] at h
    obtain ⟨x, hx⟩ := @ih (frames - cost .binary) (by omega)
    refine ⟨x.add .one, ?_⟩
    rw [sumOfOnes, eval, Bounded.descend_bind, if_pos (by omega), hx]
    rfl

theorem exists_infixForm_sumOfOnes {cost : Layer → Nat} {line : Int} {n : Nat} :
    ∀ {frames : Nat}, n * cost .binary ≤ frames →
      ∃ text, (sumOfOnes line n).infixForm ⟨some frames, cost⟩ = .ok text := by
  obtain ⟨one, hone, -⟩ := rendered_literal (v := .number .one) trivial
  have hform : ∀ a : Allowance Layer, (literal (.number .one)).infixForm a = .ok one := by
    intro a
    rw [infixForm, hone]
    rfl
  induction n with
  | zero => exact fun _ => ⟨one, hform _⟩
  | succ n ih =>
    intro frames h
    rw [Nat.succ_mul] at h
    obtain ⟨left, hleft⟩ := @ih (frames - cost .binary) (by omega)
    refine ⟨"(" ++ left ++ separator (Token.operator .plus line).lexeme ++ one ++ ")", ?_⟩
    rw [sumOfOnes, infixForm, Bounded.descend_bind, if_pos (by omega), hleft, hform]
    rfl

end Expr

theorem reads_sumText (n : Nat) : Reads EndsNumber (sumText n) (Expr.sumOfOnes 0 n).marks := by
  induction n with
  | zero => exact reads_number numberText_one
  | succ n ih =>
    have hplus : Reads Anything ['+'] [.operator (.operator .plus 0)] := reads_punctuation rfl rfl
    exact ih.append (hplus.append (reads_number numberText_one) fun _ _ => trivial)
      fun _ _ => ⟨rfl, rfl⟩

theorem rendered_sumText (n : Nat) : Rendered (sumText n) (Expr.sumOfOnes 0 n) := by
  refine ⟨?_, ?_⟩
  · rw [Expr.unlined_sumOfOnes]
    exact (reads_sumText n).mono fun _ hrest => hrest.endsNumber
  · induction n with
    | zero => exact ⟨'1', [], rfl, rfl⟩
    | succ n ih =>
      obtain ⟨c, more, htext, hc⟩ := ih
      exact ⟨c, more ++ ['+', '1'], by rw [sumText, htext]; rfl, hc⟩

/-- **A sum is read within every limit**, up to lines. -/
theorem exists_tree?_sumText (limits : Limits) (n : Nat) :
    (Scan.ofSource (.text (String.ofList (sumText n)))).errors = [] ∧
      ∃ t, (Scan.ofSource (.text (String.ofList (sumText n)))).tree? limits = some t ∧
        t.unlined = Expr.sumOfOnes 0 n := by
  have hrendered : Rendered (String.ofList (sumText n)).toList (Expr.sumOfOnes 0 n) := by
    rw [String.toList_ofList]
    exact rendered_sumText n
  obtain ⟨herrors, -, hread⟩ := hrendered.parse_within (Expr.shaped_sumOfOnes 0 n) limits
  rw [Expr.parseDepth_sumOfOnes, Expr.unlined_sumOfOnes] at hread
  exact ⟨herrors, hread limits.parsing.covers_zero⟩

/-- Whether a source is read without an error and its tree is evaluated and printed, all of it
within the limits, but the rendering is refused for its depth. -/
def RenderingRefused (limits : Limits) (source : Source) : Prop :=
  (Scan.ofSource source).errors = [] ∧
    ∃ t v text, (Scan.ofSource source).tree? limits = some t ∧
      t.evaluate limits.evaluating defaultPlaces = .ok v ∧
      t.infixForm limits.infixPrinting = .ok text ∧
      (Scan.ofSource (.text text)).ParseStopsIff limits True

/-- **Between two lengths** a sum is evaluated and its rendering is refused: an operator takes two
frames of an evaluation and nine frames of the parse of its rendering. -/
theorem renderingRefused_sumText {n : Nat} (hdeep : 982 < n * 9) (hflat : n * 2 ≤ 990) :
    RenderingRefused .standard (.text (String.ofList (sumText n))) := by
  obtain ⟨herrors, t, htree, hsum⟩ := exists_tree?_sumText .standard n
  obtain ⟨x, hx⟩ : ∃ x, (Expr.sumOfOnes 0 n).eval defaultPlaces Limits.standard.evaluating =
      .ok (.number x) := Expr.exists_eval_sumOfOnes hflat
  obtain ⟨text, htext⟩ : ∃ text, (Expr.sumOfOnes 0 n).infixForm Limits.standard.infixPrinting =
      .ok text := Expr.exists_infixForm_sumOfOnes (by show n * 1 ≤ 993; omega)
  have hdepth : Limits.standard.parsing.covers
      (t.rereadDepth Limits.standard.parsing.cost) = false := by
    rw [← Expr.rereadDepth_unlined, hsum, Expr.rereadDepth_sumOfOnes]
    exact decide_eq_false (Nat.not_le_of_lt hdeep)
  rw [← hsum, Expr.infixForm_unlined] at htext
  obtain ⟨-, hstops, -⟩ :=
    Expr.infixForm_parse_within (Scan.writable_of_tree? htree) htext
  refine ⟨herrors, t, .number x, text, htree, ?_, htext,
    fun r => (hstops r).trans (iff_true_intro hdepth)⟩
  rw [← hsum, Expr.eval_unlined] at hx
  rw [Expr.evaluate]
  cases heval : t.eval defaultPlaces Limits.standard.evaluating with
  | ok v =>
    rw [heval] at hx
    exact congrArg Except.ok (Except.ok.inj hx)
  | error halt =>
    rw [heval] at hx
    cases hx

/-- **A program whose rendering is refused**: a sum with 200 operators. -/
theorem Expr.infixForm_sumOfOnes_refused :
    RenderingRefused .standard (.text (String.ofList (sumText 200))) :=
  renderingRefused_sumText (by decide) (by decide)

end LoxCalc
