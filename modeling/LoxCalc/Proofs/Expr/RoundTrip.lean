import LoxCalc.Expr.Printer
import LoxCalc.Proofs.Expr.Respelling
import LoxCalc.Proofs.Number.ReadBack
import LoxCalc.Proofs.Script.SourceTrees
import LoxCalc.Proofs.Token.Seams

/-!
# The infix form is read back

`Reads follow text ms`: whatever is put behind `text`, as long as `follow` allows
it, the text is cut off as segments of its own, without an error, and their tokens
have the marks `ms`.  Such texts can be joined (`Reads.append`), and so the infix
form is followed part by part: **a rendering may be followed by a space, a closing
parenthesis or a comma** (`Separated`), and nothing else ever follows one.

What is read are the marks of the respelled tree (`reads_infixForm`).  The rest is
known: the tree is shaped, so a parse gives it back up to lines.

* `infixForm_roundTrip`: scanning, parsing and evaluating the infix form.
-/

namespace LoxCalc

/-! ### Marks of segments -/

def Segment.mark? (s : Segment) : Option Mark :=
  (s.token? 0).map Token.mark

namespace Scan

theorem ofSegments_of_clean {ss : List Segment} (h : ∀ s ∈ ss, s.error? 0 = none) (line : Nat) :
    (ofSegments line ss).errors = [] ∧
      ((ofSegments line ss).body.map Token.mark).map Mark.unlined =
        ss.filterMap Segment.mark? := by
  constructor
  · have hnone : ss.filterMap Segment.cause? = [] := by
      refine List.filterMap_eq_nil_iff.mpr fun s hs => ?_
      rw [← s.cause?_eq 0, h s hs]
      rfl
    rw [← map_cause_errors ss line] at hnone
    exact List.map_eq_nil_iff.mp hnone
  · have hmark : Mark.unlined ∘ Token.mark = Token.mark ∘ Token.unlined :=
      funext fun t => t.mark_unlined.symm
    rw [List.map_map, hmark, ← List.map_map, map_unlined_body, List.map_filterMap]
    rfl

end Scan

/-! ### Texts that are read -/

/-- Whether a text is cut off without an error as segments with the marks `ms`, if
what follows is allowed to. -/
def Reads (follow : List Char → Prop) (text : List Char) (ms : List Mark) : Prop :=
  ∀ rest, follow rest → ∃ ss, segments (text ++ rest) = ss ++ segments rest ∧
    (∀ s ∈ ss, s.error? 0 = none) ∧ ss.filterMap Segment.mark? = ms

def Anything (_ : List Char) : Prop := True

namespace Reads

variable {follow follow' : List Char → Prop} {text text' : List Char} {ms ms' : List Mark}

/-- **Texts that are read can be joined.** -/
theorem append (h : Reads follow text ms) (h' : Reads follow' text' ms')
    (hfollow : ∀ rest, follow' rest → follow (text' ++ rest)) :
    Reads follow' (text ++ text') (ms ++ ms') := by
  intro rest hrest
  obtain ⟨ss, hss, hclean, hms⟩ := h (text' ++ rest) (hfollow rest hrest)
  obtain ⟨ss', hss', hclean', hms'⟩ := h' rest hrest
  refine ⟨ss ++ ss', ?_, ?_, ?_⟩
  · rw [List.append_assoc, hss, hss', List.append_assoc]
  · intro s hs
    rcases List.mem_append.mp hs with hs | hs
    · exact hclean s hs
    · exact hclean' s hs
  · rw [List.filterMap_append, hms, hms']

theorem of_segment (s : Segment)
    (hcut : ∀ rest, follow rest → segments (text ++ rest) = s :: segments rest)
    (hclean : s.error? 0 = none) (hmark : s.mark?.toList = ms) : Reads follow text ms := by
  intro rest hrest
  refine ⟨[s], hcut rest hrest, ?_, ?_⟩
  · intro t ht
    rwa [List.mem_singleton.mp ht]
  · rw [List.filterMap_cons, ← hmark]
    cases s.mark? <;> rfl

theorem mono (h : Reads follow text ms) (hfollow : ∀ rest, follow' rest → follow rest) :
    Reads follow' text ms :=
  fun rest hrest => h rest (hfollow rest hrest)

end Reads

/-! ### Single parts -/

theorem reads_punctuation {c : Char} {kind : Kind} {m : Mark}
    (hkind : Segment.punctuation? c = some kind) (hmark : (Segment.symbol kind).mark? = some m) :
    Reads Anything [c] [m] :=
  .of_segment (.symbol kind) (fun rest _ => segments_punctuation hkind rest) rfl
    (by rw [hmark, Option.toList_some])

theorem reads_leftParen : Reads Anything ['('] [.plain .leftParen] :=
  reads_punctuation rfl rfl

theorem reads_rightParen : Reads Anything [')'] [.plain .rightParen] :=
  reads_punctuation rfl rfl

theorem reads_question : Reads Anything ['?'] [.plain .question] :=
  reads_punctuation rfl rfl

theorem reads_colon : Reads Anything [':'] [.plain .colon] :=
  reads_punctuation rfl rfl

theorem reads_comma : Reads Anything [','] [.operator (.operator .comma 0)] :=
  reads_punctuation rfl rfl

theorem reads_minus : Reads Anything ['-'] [.operator (.operator .minus 0)] :=
  reads_punctuation rfl rfl

theorem reads_space : Reads Anything [' '] [] :=
  .of_segment (.blank ' ') (fun rest _ => segments_space rest) rfl rfl

theorem reads_bang : Reads (NotBegun (· == '=')) ['!'] [.operator (.operator .bang 0)] :=
  .of_segment (.symbol .bang) (fun _ hrest => segments_bang hrest) rfl rfl

theorem reads_slash : Reads (NotBegun (· == '/')) ['/'] [.operator (.operator .slash 0)] :=
  .of_segment (.symbol .slash) (fun _ hrest => segments_slash hrest) rfl rfl

def Spaced (rest : List Char) : Prop := ∃ more, rest = ' ' :: more

theorem reads_operator {kind : Kind} (h : kind.level?.isSome = true) :
    Reads Spaced kind.spelling [.operator (.operator kind 0)] := by
  refine .of_segment (.symbol kind) ?_ rfl ?_
  · rintro rest ⟨more, rfl⟩
    cases kind <;> first
      | exact segments_of_cut rfl
      | exact absurd h (by decide)
  · cases kind <;> first
      | rfl
      | exact absurd h (by decide)

/-- Whether a text may follow a number: it does not go on with the number. -/
def EndsNumber (rest : List Char) : Prop :=
  NotBegun Char.isDigit rest ∧ NotBegun (· == '.') rest

theorem Separated.endsNumber {rest : List Char} (h : Separated rest) : EndsNumber rest :=
  ⟨h.notBegun rfl rfl rfl, h.notBegun rfl rfl rfl⟩

theorem reads_number {x : Number} {text : List Char} (h : NumberText x text) :
    Reads EndsNumber text [.literal (some .number) (.number x)] := by
  obtain ⟨whole, fraction, rfl, hne, hdigits, rfl⟩ := h
  exact .of_segment (.number whole fraction)
    (fun _ hrest => segments_number hne hdigits hrest.1 hrest.2) rfl rfl

theorem reads_string {body : String} (h : '"' ∉ body.toList) :
    Reads Anything ('"' :: (body.toList ++ ['"'])) [.literal (some .string) (.string body)] := by
  refine .of_segment (.string body.toList) (fun rest _ => ?_) rfl ?_
  · rw [List.cons_append, List.append_assoc]
    exact segments_string h rest
  · show [Mark.literal (some .string) (.string (String.ofList body.toList))] = _
    rw [String.ofList_toList]

theorem reads_word {c : Char} {more : List Char} {ms : List Mark}
    (hc : Segment.isLetter c = true) (hdigit : c.isDigit = false)
    (hmore : more.all Segment.isWordCharacter = true)
    (hmark : (Segment.word (c :: more)).mark?.toList = ms) : Reads Separated (c :: more) ms :=
  .of_segment (.word (c :: more))
    (fun _ hrest =>
      segments_word hc hdigit (List.all_eq_true.mp hmore) (hrest.notBegun rfl rfl rfl))
    rfl hmark

/-! ### Parts put together -/

/-- **What may be followed by a closing parenthesis may stand in parentheses.** -/
theorem Reads.paren {text : List Char} {ms : List Mark} (h : Reads Separated text ms) :
    Reads Anything ('(' :: (text ++ [')']))
      (.plain .leftParen :: (ms ++ [.plain .rightParen])) :=
  reads_leftParen.append (h.append reads_rightParen fun _ _ => Or.inr (Or.inl rfl))
    fun _ _ => trivial

theorem Reads.spaced {text : List Char} {ms : List Mark} (h : Reads Spaced text ms) :
    Reads Anything (' ' :: (text ++ [' '])) ms := by
  have hread := reads_space.append (h.append reads_space fun rest _ => ⟨rest, rfl⟩)
    fun _ _ => trivial
  rwa [List.append_nil, List.nil_append] at hread

/-! ### Renderings -/

/-- A text that is read as a tree up to lines, and that does not begin with an
equals sign. -/
structure Rendered (text : List Char) (e : Expr) : Prop where
  reads : Reads Separated text e.unlined.marks
  begun : ∃ c more, text = c :: more ∧ (c == '=') = false

namespace Rendered

theorem notBegun {text : List Char} {e : Expr} (h : Rendered text e) (rest : List Char) :
    NotBegun (· == '=') (text ++ rest) := by
  obtain ⟨c, more, rfl, hc⟩ := h.begun
  exact hc

theorem paren {text : List Char} {e : Expr} (h : Reads Separated text e.unlined.marks) :
    Rendered ('(' :: (text ++ [')'])) (.grouping e) :=
  ⟨h.paren.mono fun _ _ => trivial, '(', _, rfl, rfl⟩

end Rendered

/-! ### Literals -/

theorem numberText_zero : NumberText .zero ['0'] :=
  ⟨['0'], [], rfl, by simp, List.all_eq_true.mp rfl, by decide +kernel⟩

theorem numberText_one : NumberText .one ['1'] :=
  ⟨['1'], [], rfl, by simp, List.all_eq_true.mp rfl, by decide +kernel⟩

theorem NumberText.begun {x : Number} {text : List Char} (h : NumberText x text) :
    ∃ c more, text = c :: more ∧ (c == '=') = false := by
  obtain ⟨whole, fraction, rfl, hne, hdigits, -⟩ := h
  cases whole with
  | nil => exact absurd rfl hne
  | cons c whole =>
    have hc : c.isDigit = true := hdigits c (by simp)
    have hequal : (c == '=') = false :=
      beq_eq_false_iff_ne.mpr fun heq => absurd hc (by rw [heq]; decide)
    cases fraction with
    | nil => exact ⟨c, _, rfl, hequal⟩
    | cons d more => exact ⟨c, _, rfl, hequal⟩

theorem rendered_division (text : List Char) (e : Expr)
    (h : Reads EndsNumber text e.unlined.marks) :
    Rendered ('(' :: ((text ++ ['/', '0']) ++ [')']))
      (.grouping (.binary e (.operator .slash 0) (.literal (.number .zero)))) := by
  have hzero : Reads Separated ['0'] [.literal (some .number) (.number .zero)] :=
    (reads_number numberText_zero).mono fun _ hrest => hrest.endsNumber
  have hdivision := h.append (reads_slash.append hzero fun _ _ => rfl) fun _ _ => ⟨rfl, rfl⟩
  exact Rendered.paren hdivision

theorem rendered_number {x : Number} {text : List Char} (h : NumberText x text) :
    Rendered text (.literal (.number x)) :=
  ⟨(reads_number h).mono fun _ hrest => hrest.endsNumber, h.begun⟩

/-- **The text of a literal is read as the respelled literal.** -/
theorem rendered_literal {v : Value} (hv : v.Writable) :
    ∃ text, Expr.infixLiteral v = .ok text ∧ Rendered text.toList v.respelled := by
  cases v with
  | nil =>
    exact ⟨"nil", rfl, reads_word rfl rfl rfl rfl, 'n', _, rfl, rfl⟩
  | bool b =>
    cases b with
    | true => exact ⟨"true", rfl, reads_word rfl rfl rfl rfl, 't', _, rfl, rfl⟩
    | false => exact ⟨"false", rfl, reads_word rfl rfl rfl rfl, 'f', _, rfl, rfl⟩
  | number x =>
    cases x with
    | nan =>
      exact ⟨"(0/0)", rfl,
        rendered_division ['0'] (.literal (.number .zero)) (reads_number numberText_zero)⟩
    | infinite negative =>
      cases negative with
      | false =>
        exact ⟨"(1/0)", rfl,
          rendered_division ['1'] (.literal (.number .one)) (reads_number numberText_one)⟩
      | true =>
        exact ⟨"(-1/0)", rfl,
          rendered_division ['-', '1'] (.unary (.operator .minus 0) (.literal (.number .one)))
            (reads_minus.append (reads_number numberText_one) fun _ _ => trivial)⟩
    | finite negative rank =>
      have hrank := Number.numberText_write rank
      cases negative with
      | false =>
        refine ⟨_, rfl, ?_⟩
        rw [String.toList_ofList]
        exact rendered_number hrank
      | true =>
        refine ⟨_, rfl, ?_⟩
        rw [String.toList_ofList, Number.write_negative]
        exact ⟨reads_minus.append (rendered_number hrank).reads fun _ _ => trivial, '-', _, rfl, rfl⟩
  | string s =>
    refine ⟨_, rfl, ?_⟩
    have htext : ("\"" ++ s ++ "\"").toList = '"' :: (s.toList ++ ['"']) := by
      rw [String.toList_append, String.toList_append]
      rfl
    rw [htext]
    exact ⟨(reads_string hv).mono fun _ _ => trivial, '"', _, rfl, rfl⟩
  | foreign n => exact hv.elim

/-! ### Operators -/

theorem Token.AsScanned.toList_lexeme {op : Token} (h : op.AsScanned) :
    op.lexeme.toList = op.kind.spelling := by
  rw [show op.lexeme = String.ofList op.kind.spelling from congrArg Token.lexeme h,
    String.toList_ofList]

theorem Token.AsScanned.unlined_eq {op : Token} (h : op.AsScanned) :
    op.unlined = .operator op.kind 0 :=
  congrArg Token.unlined h

theorem reads_sign {op : Token} (hop : op.kind = .bang ∨ op.kind = .minus)
    (h : op.AsScanned) :
    Reads (NotBegun (· == '=')) op.lexeme.toList [.operator op.unlined] := by
  rw [h.toList_lexeme, h.unlined_eq]
  rcases hop with hop | hop
  · rw [hop]
    exact reads_bang
  · rw [hop]
    exact reads_minus.mono fun _ _ => trivial

theorem toList_separator {op : Token} (h : op.AsScanned) (hop : op.kind.level?.isSome = true) :
    (Expr.separator op.lexeme).toList =
      if op.kind = .comma then [',', ' '] else ' ' :: (op.kind.spelling ++ [' ']) := by
  rw [show op.lexeme = String.ofList op.kind.spelling from congrArg Token.lexeme h]
  generalize op.kind = kind at hop
  cases kind <;> first
    | exact absurd hop (by decide)
    | decide

/-- What separates the operands of an operator is read as the operator, and it may
follow every rendering. -/
theorem reads_separator {op : Token} (h : op.AsScanned) (hop : op.kind.level?.isSome = true) :
    Reads Anything (Expr.separator op.lexeme).toList [.operator op.unlined] ∧
      ∀ rest, Separated ((Expr.separator op.lexeme).toList ++ rest) := by
  rw [toList_separator h hop, h.unlined_eq]
  split
  · rename_i hcomma
    rw [hcomma]
    exact ⟨reads_comma.append reads_space fun _ _ => trivial, fun _ => Or.inr (Or.inr rfl)⟩
  · exact ⟨(reads_operator hop).spaced, fun _ => Or.inl rfl⟩

/-! ### Trees -/

namespace Expr

variable (a : Allowance Layer)

theorem infixForm_unary_unbounded (op : Token) (e : Expr) :
    (unary op e).infixForm a.unbounded =
      e.infixForm a.unbounded >>= fun right => .ok ("(" ++ op.lexeme ++ right ++ ")") := rfl

theorem infixForm_binary_unbounded (l : Expr) (op : Token) (r : Expr) :
    (binary l op r).infixForm a.unbounded =
      l.infixForm a.unbounded >>= fun left => r.infixForm a.unbounded >>= fun right =>
        .ok ("(" ++ left ++ separator op.lexeme ++ right ++ ")") := rfl

theorem infixForm_grouping_unbounded (e : Expr) :
    (grouping e).infixForm a.unbounded =
      e.infixForm a.unbounded >>= fun inner => .ok ("(" ++ inner ++ ")") := rfl

theorem infixForm_conditional_unbounded (c t e : Expr) :
    (conditional c t e).infixForm a.unbounded =
      c.infixForm a.unbounded >>= fun condition => t.infixForm a.unbounded >>= fun thenText =>
        e.infixForm a.unbounded >>= fun elseText =>
          .ok ("(" ++ condition ++ " ? " ++ thenText ++ " : " ++ elseText ++ ")") := rfl

/-- **The infix form is read as the respelled tree.** -/
theorem rendered_infixForm {e : Expr} (h : e.Writable) :
    ∃ text, e.infixForm a.unbounded = .ok text ∧ Rendered text.toList e.respelled := by
  obtain ⟨hops, hlits⟩ := h
  induction e with
  | literal v =>
    obtain ⟨text, htext, hrendered⟩ := rendered_literal hlits
    refine ⟨text, ?_, hrendered⟩
    rw [infixForm, htext]
    rfl
  | grouping e ih =>
    obtain ⟨inner, hinner, hrendered⟩ := ih hops hlits
    refine ⟨_, by rw [infixForm_grouping_unbounded, hinner]; rfl, ?_⟩
    rw [String.toList_append, String.toList_append]
    exact .paren hrendered.reads
  | unary op e ih =>
    obtain ⟨hop, hscanned, he⟩ := hops
    obtain ⟨right, hright, hrendered⟩ := ih he hlits
    refine ⟨_, by rw [infixForm_unary_unbounded, hright]; rfl, ?_⟩
    rw [String.toList_append, String.toList_append, String.toList_append]
    exact .paren ((reads_sign hop hscanned).append hrendered.reads fun rest _ =>
      hrendered.notBegun rest)
  | binary l op r ihl ihr =>
    obtain ⟨hop, hscanned, hl, hr⟩ := hops
    obtain ⟨left, hleft, hleftRendered⟩ := ihl hl hlits.1
    obtain ⟨right, hright, hrightRendered⟩ := ihr hr hlits.2
    obtain ⟨hseparator, hseparated⟩ := reads_separator hscanned hop
    refine ⟨_, by rw [infixForm_binary_unbounded, hleft, hright]; rfl, ?_⟩
    have hoperands := hleftRendered.reads.append (hseparator.append hrightRendered.reads
      fun _ _ => trivial) fun rest _ => by
        rw [List.append_assoc]
        exact hseparated _
    rw [← List.append_assoc] at hoperands
    rw [String.toList_append, String.toList_append, String.toList_append, String.toList_append]
    exact .paren hoperands
  | conditional c t e ihc iht ihe =>
    obtain ⟨hc, ht, he⟩ := hops
    obtain ⟨condition, hcondition, hcRendered⟩ := ihc hc hlits.1
    obtain ⟨thenText, hthen, htRendered⟩ := iht ht hlits.2.1
    obtain ⟨elseText, helse, heRendered⟩ := ihe he hlits.2.2
    refine ⟨_, by rw [infixForm_conditional_unbounded, hcondition, hthen, helse]; rfl, ?_⟩
    have hquestion : Reads Anything [' ', '?', ' '] [.plain .question] :=
      (reads_question.mono fun _ _ => trivial).spaced
    have hcolon : Reads Anything [' ', ':', ' '] [.plain .colon] :=
      (reads_colon.mono fun _ _ => trivial).spaced
    have hbranches := htRendered.reads.append (hcolon.append heRendered.reads
      fun _ _ => trivial) fun rest _ => Or.inl rfl
    have hparts := hcRendered.reads.append (hquestion.append hbranches fun _ _ => trivial)
      fun rest _ => Or.inl rfl
    have htext : condition.toList ++ ([' ', '?', ' '] ++ (thenText.toList ++ ([' ', ':', ' '] ++
        elseText.toList))) = condition.toList ++ [' ', '?', ' '] ++ thenText.toList ++
          [' ', ':', ' '] ++ elseText.toList := by simp only [List.append_assoc]
    rw [htext] at hparts
    rw [String.toList_append, String.toList_append, String.toList_append, String.toList_append,
      String.toList_append, String.toList_append]
    exact .paren hparts
  | absent | bare _ => exact hops.elim

end Expr

/-! ### The round trip -/

open LoxCalc.Expr

/-- **A rendering is scanned without an error**, as the tokens of a tree that is the rendered one
up to lines. -/
theorem Rendered.scan {text : String} {e : Expr} (h : Rendered text.toList e) (he : e.Shaped) :
    (Scan.ofSource (.text text)).errors = [] ∧
      ∃ u : Expr, u.Shaped ∧ (Scan.ofSource (.text text)).body.map Token.mark = u.marks ∧
        u.unlined = e.unlined := by
  obtain ⟨ss, hss, hclean, hms⟩ := h.reads [] trivial
  rw [List.append_nil] at hss
  have hscan : Scan.ofSource (.text text) = Scan.ofSegments 1 ss := by
    show Scan.ofSegments 1 (segments text.toList) = _
    rw [hss, show segments [] = [] by rw [segments], List.append_nil]
  obtain ⟨herrors, hmarks⟩ := Scan.ofSegments_of_clean hclean 1
  rw [hms] at hmarks
  obtain ⟨u, humarks, hu⟩ := exists_of_marks_unlined he hmarks
  have hshaped : u.Shaped := by
    rw [← shaped_unlined, hu, shaped_unlined]
    exact he
  rw [hscan]
  exact ⟨herrors, u, hshaped, humarks.symm, hu⟩

/-- **A rendering is scanned and parsed without an error**, to a tree that is the
rendered one up to lines. -/
theorem Rendered.parse {text : String} {e : Expr} (h : Rendered text.toList e) (he : e.Shaped)
    (parsing : Allowance Parser.Opening) :
    (Scan.ofSource (.text text)).errors = [] ∧
      ∃ u, ((Parser.ofStream (.ofScan (Scan.ofSource (.text text)))).parse parsing.unbounded).1 =
          .ok u ∧ u.unlined = e.unlined := by
  obtain ⟨herrors, u, hshaped, hmarks, hu⟩ := h.scan he
  refine ⟨herrors, u, ?_, hu⟩
  rw [Parser.parse_eq_ok_iff_read, Parser.read_eq_ok_iff rfl, Scan.body_ofScan_ofSource]
  exact Parser.Phase.finish_of_shaped hshaped hmarks

/-- **The infix form is read back.**  Scanning and parsing it gives a tree without any
error, the nesting limit set aside.  If every number in the tree is finite and has no
sign, this tree differs from the first one only in groups and lines; and in any case
the evaluations of both end alike. -/
theorem Expr.infixForm_roundTrip (limits : Limits) (places : Int) {t : Expr} (ht : t.Writable) :
    ∃ text u, t.infixForm limits.unbounded.infixPrinting = .ok text ∧
      (Scan.ofSource (.text text)).errors = [] ∧
      ((Parser.ofStream (.ofScan (Scan.ofSource (.text text)))).parse
        limits.unbounded.parsing).1 = .ok u ∧
      (t.AllLiterals Value.ClearSigned → u.ungrouped.unlined = t.ungrouped.unlined) ∧
      SameEnd places (u.evaluate limits.unbounded.evaluating places)
        (t.evaluate limits.unbounded.evaluating places) := by
  obtain ⟨text, htext, hrendered⟩ := rendered_infixForm limits.infixPrinting ht
  obtain ⟨herrors, u, hparse, hu⟩ := hrendered.parse (shaped_respelled ht.1) limits.parsing
  refine ⟨text, u, htext, herrors, hparse, fun hclear => ?_, ?_⟩
  · rw [← ungrouped_unlined, hu, ungrouped_unlined, ungrouped_respelled hclear]
  · refine sameEnd_of_unlined places limits.evaluating ht ?_
    rw [← eval_unlined, hu, eval_unlined, eval_respelled]

/-- A tree over two lines with literals that have to be respelled, written
`(((0/0) < -0) ? (-"a") : (((-1/0), nil)))`. -/
def Expr.respelledCondition : Expr :=
  .conditional
    (.binary (.literal (.number .nan)) (.operator .less 1)
      (.literal (.number (.finite true ⟨0, by decide⟩))))
    (.unary (.operator .minus 2) (.literal (.string "a")))
    (.grouping (.binary (.literal (.number (.infinite true))) (.operator .comma 2)
      (.literal .nil)))

theorem Expr.infixForm_respelledCondition :
    respelledCondition.Writable ∧
      ∃ text u, respelledCondition.infixForm Limits.standard.unbounded.infixPrinting = .ok text ∧
        (Scan.ofSource (.text text)).errors = [] ∧
        ((Parser.ofStream (.ofScan (Scan.ofSource (.text text)))).parse
          Limits.standard.unbounded.parsing).1 = .ok u ∧
        (respelledCondition.AllLiterals Value.ClearSigned →
          u.ungrouped.unlined = respelledCondition.ungrouped.unlined) ∧
        SameEnd 6 (u.evaluate Limits.standard.unbounded.evaluating 6)
          (respelledCondition.evaluate Limits.standard.unbounded.evaluating 6) := by
  have hwritable : respelledCondition.Writable := by
    refine ⟨⟨⟨rfl, rfl, trivial, trivial⟩, ⟨Or.inr rfl, rfl, trivial⟩, rfl, rfl, trivial, trivial⟩,
      ⟨trivial, trivial⟩, ?_, trivial, trivial⟩
    show '"' ∉ "a".toList
    decide
  exact ⟨hwritable, infixForm_roundTrip .standard 6 hwritable⟩

end LoxCalc
