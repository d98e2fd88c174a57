import LoxCalc.Proofs.Expr.RoundTrip

/-!
# The prefix form identifies a tree

No two trees that can be written have one prefix form, unless they differ in nothing but
the lines of their operators (`prefixForm_identifies`).  Nothing in the text is escaped, and
`-` stands for three things: a prefix operator, a binary operator and the sign of a number.

**A rendering shows where it ends.**  This is the statement that the induction is on
(`Delimited`): two renderings with something behind them, which begins with a space or a
closing parenthesis, are the same text only if the trees are the same and so are the rests.

* A literal is read off the segments that its text is cut into (`readLiteral?_segments`); none of
  them begins with a parenthesis.
* A node is its label and its operands.  The label goes up to the first space, and each operand
  shows where it ends; the number of operands tells the two uses of `-` apart.
-/

namespace LoxCalc

/-! ### Literals -/

theorem segments_injective {text text' : List Char} (h : segments text = segments text') :
    text = text' := by
  rw [← flatMap_text_segments text, h, flatMap_text_segments]

namespace Value

def words : List (String × Value) :=
  [("nil", .nil), ("true", .bool true), ("false", .bool false), ("nan", .number .nan),
    ("inf", .number (.infinite false))]

def ofSegment? : Segment → Option Value
  | .string body => some (.string (String.ofList body))
  | .number whole fraction => some (.number (Segment.numberValue whole fraction))
  | .word text => words.lookup (String.ofList text)
  | _ => none

/-- A number with the other sign; nothing else has a sign. -/
def negated : Value → Value
  | .number x => .number x.negate
  | v => v

/-- The literal at the beginning of segments, and the segments behind it. -/
def readLiteral? : List Segment → Option (Value × List Segment)
  | .symbol .minus :: s :: rest => (ofSegment? s).map fun v => (v.negated, rest)
  | s :: rest => (ofSegment? s).map fun v => (v, rest)
  | [] => none

section Reading

variable {rest : List Char}

theorem readLiteral?_word {c : Char} {more : List Char} {v : Value}
    (hc : Segment.isLetter c = true) (hdigit : c.isDigit = false)
    (hmore : more.all Segment.isWordCharacter = true)
    (hword : words.lookup (String.ofList (c :: more)) = some v) (hrest : Separated rest) :
    readLiteral? (segments (c :: (more ++ rest))) = some (v, segments rest) := by
  rw [segments_word hc hdigit (List.all_eq_true.mp hmore) (hrest.notBegun rfl rfl rfl)]
  show (words.lookup (String.ofList (c :: more))).map (fun v => (v, segments rest)) = _
  rw [hword]
  rfl

theorem readLiteral?_number {x : Number} {text : List Char} (h : NumberText x text)
    (hrest : Separated rest) :
    readLiteral? (segments (text ++ rest)) = some (.number x, segments rest) := by
  obtain ⟨whole, fraction, rfl, hne, hdigits, rfl⟩ := h
  have hends := hrest.endsNumber
  rw [segments_number hne hdigits hends.1 hends.2]
  rfl

/-- **A minus in front of a number changes its sign.** -/
theorem readLiteral?_minus {s : Segment} {ss : List Segment} {x : Number} {text : List Char}
    (hcut : segments text = s :: ss) (hs : ofSegment? s = some (.number x)) :
    readLiteral? (segments ('-' :: text)) = some (.number x.negate, ss) := by
  rw [segments_punctuation rfl, hcut]
  show (ofSegment? s).map (fun v => (v.negated, ss)) = _
  rw [hs]
  rfl

theorem readLiteral?_string {body : List Char} (h : '"' ∉ body) :
    readLiteral? (segments ('"' :: (body ++ '"' :: rest))) =
      some (.string (String.ofList body), segments rest) := by
  rw [segments_string h]
  rfl

/-- **The text of a literal is read as the literal**, whatever separates it from the rest. -/
theorem readLiteral?_segments {v : Value} (hv : v.Writable) (hrest : Separated rest) :
    ∃ text, v.literalText = .ok text ∧
      readLiteral? (segments (text.toList ++ rest)) = some (v, segments rest) := by
  cases v with
  | nil => exact ⟨_, rfl, readLiteral?_word rfl rfl rfl rfl hrest⟩
  | bool b =>
    cases b with
    | true => exact ⟨_, rfl, readLiteral?_word rfl rfl rfl rfl hrest⟩
    | false => exact ⟨_, rfl, readLiteral?_word rfl rfl rfl rfl hrest⟩
  | number x =>
    refine ⟨_, rfl, ?_⟩
    rw [String.toList_ofList]
    cases x with
    | nan => exact readLiteral?_word rfl rfl rfl rfl hrest
    | infinite negative =>
      cases negative with
      | false => exact readLiteral?_word rfl rfl rfl rfl hrest
      | true =>
        have hcut : segments ('i' :: (['n', 'f'] ++ rest)) =
            .word ['i', 'n', 'f'] :: segments rest :=
          segments_word rfl rfl (List.all_eq_true.mp rfl) (hrest.notBegun rfl rfl rfl)
        exact readLiteral?_minus hcut rfl
    | finite negative rank =>
      have hnumber := Number.numberText_write rank
      cases negative with
      | false => exact readLiteral?_number hnumber hrest
      | true =>
        obtain ⟨whole, fraction, htext, hne, hdigits, hvalue⟩ := hnumber
        have hends := hrest.endsNumber
        have hcut := segments_number hne hdigits hends.1 hends.2
        rw [← htext] at hcut
        rw [Number.write_negative]
        exact readLiteral?_minus hcut (congrArg (fun x => some (Value.number x)) hvalue)
  | string s =>
    refine ⟨_, rfl, ?_⟩
    have htext : ("\"" ++ s ++ "\"").toList ++ rest = '"' :: (s.toList ++ '"' :: rest) := by
      simp [String.toList_append]
    rw [htext, readLiteral?_string hv, String.ofList_toList]
  | foreign n => exact hv.elim

end Reading

end Value

namespace Expr

/-! ### Nodes -/

/-- What a node is called in the prefix form. -/
def label : Expr → List Char
  | .grouping _ => "group".toList
  | .unary op _ => op.lexeme.toList
  | .binary _ op _ => op.lexeme.toList
  | .conditional .. => "?:".toList
  | .literal _ | .absent | .bare _ => []

def operands : Expr → List Expr
  | .grouping e => [e]
  | .unary _ e => [e]
  | .binary l _ r => [l, r]
  | .conditional c t e => [c, t, e]
  | .literal _ | .absent | .bare _ => []

theorem operands_induction {P : Expr → Prop} (step : ∀ e, (∀ o ∈ e.operands, P o) → P e) :
    ∀ e, P e := by
  intro e
  induction e with
  | literal _ | absent | bare _ => exact step _ fun _ ho => nomatch ho
  | grouping e ih => exact step _ (by simpa [operands] using ih)
  | unary op e ih => exact step _ (by simpa [operands] using ih)
  | binary l op r ihl ihr => exact step _ (by simpa [operands] using ⟨ihl, ihr⟩)
  | conditional c t e ihc iht ihe => exact step _ (by simpa [operands] using ⟨ihc, iht, ihe⟩)

theorem Writable.of_mem_operands {e o : Expr} (h : e.Writable) (ho : o ∈ e.operands) :
    o.Writable := by
  obtain ⟨hops, hlits⟩ := h
  cases e with
  | literal _ | absent | bare _ => exact nomatch ho
  | grouping e =>
    obtain rfl := List.mem_singleton.mp ho
    exact ⟨hops, hlits⟩
  | unary op e =>
    obtain rfl := List.mem_singleton.mp ho
    exact ⟨hops.2.2, hlits⟩
  | binary l op r =>
    simp only [operands, List.mem_cons, List.not_mem_nil, or_false] at ho
    rcases ho with rfl | rfl
    · exact ⟨hops.2.2.1, hlits.1⟩
    · exact ⟨hops.2.2.2, hlits.2⟩
  | conditional c t e =>
    simp only [operands, List.mem_cons, List.not_mem_nil, or_false] at ho
    rcases ho with rfl | rfl | rfl
    · exact ⟨hops.1, hlits.1⟩
    · exact ⟨hops.2.1, hlits.2.1⟩
    · exact ⟨hops.2.2, hlits.2.2⟩

theorem Writable.literal_or_operands {e : Expr} (h : e.Writable) :
    (∃ v, e = .literal v ∧ v.Writable) ∨ e.operands ≠ [] := by
  cases e with
  | literal v => exact Or.inl ⟨v, rfl, h.2⟩
  | absent | bare _ => exact h.1.elim
  | grouping _ | unary _ _ | binary _ _ _ | conditional _ _ _ => exact Or.inr (List.cons_ne_nil _ _)

theorem space_notMem_label {e : Expr} (h : e.OperatorsKnown) : ' ' ∉ e.label := by
  have hspelling : ∀ k : Kind, ' ' ∉ k.spelling := by
    intro k
    cases k <;> decide
  cases e with
  | grouping _ | conditional _ _ _ | literal _ | absent | bare _ => simp [label]
  | unary op _ =>
    rw [label, h.2.1.toList_lexeme]
    exact hspelling op.kind
  | binary _ op _ =>
    rw [label, h.2.1.toList_lexeme]
    exact hspelling op.kind

theorem isSymbol_of_sign {kind : Kind} (h : kind = .bang ∨ kind = .minus) :
    kind.isSymbol = true := by
  rcases h with rfl | rfl <;> rfl

theorem unlined_eq_of_lexeme {op op' : Token} (h : op.AsScanned) (h' : op'.AsScanned)
    (hop : op.kind.isSymbol = true) (hop' : op'.kind.isSymbol = true)
    (hlexeme : op.lexeme.toList = op'.lexeme.toList) : op.unlined = op'.unlined := by
  rw [h.toList_lexeme, h'.toList_lexeme] at hlexeme
  rw [h.unlined_eq, h'.unlined_eq, Segment.symbol_inj hop hop' hlexeme]

theorem label_sign_ne {op : Token} (h : op.AsScanned) (hop : op.kind = .bang ∨ op.kind = .minus) :
    op.lexeme.toList ≠ "group".toList := by
  rw [h.toList_lexeme]
  rcases hop with hop | hop <;> rw [hop] <;> decide

/-- **A node is its label and its operands**, up to lines. -/
theorem unlined_eq_of_operands {t u : Expr} (ht : t.OperatorsKnown) (hu : u.OperatorsKnown)
    (hnode : t.operands ≠ []) (hlabel : t.label = u.label)
    (hoperands : t.operands.map unlined = u.operands.map unlined) : t.unlined = u.unlined := by
  have hlength := congrArg List.length hoperands
  cases t with
  | literal _ | absent | bare _ => exact absurd rfl hnode
  | grouping e =>
    cases u with
    | grouping f => exact congrArg Expr.grouping (List.cons.inj hoperands).1
    | unary op f => exact absurd hlabel.symm (label_sign_ne hu.2.1 hu.1)
    | _ => cases hlength
  | unary op e =>
    cases u with
    | grouping f => exact absurd hlabel (label_sign_ne ht.2.1 ht.1)
    | unary op' f =>
      have hop := unlined_eq_of_lexeme ht.2.1 hu.2.1 (isSymbol_of_sign ht.1)
        (isSymbol_of_sign hu.1) hlabel
      rw [unlined, unlined, hop, (List.cons.inj hoperands).1]
    | _ => cases hlength
  | binary l op r =>
    cases u with
    | binary l' op' r' =>
      obtain ⟨_, hlevel⟩ := Option.isSome_iff_exists.mp ht.1
      obtain ⟨_, hlevel'⟩ := Option.isSome_iff_exists.mp hu.1
      have hop := unlined_eq_of_lexeme ht.2.1 hu.2.1 (isSymbol_of_level? hlevel)
        (isSymbol_of_level? hlevel') hlabel
      obtain ⟨hl, hr⟩ := List.cons.inj hoperands
      rw [unlined, unlined, hop, hl, (List.cons.inj hr).1]
    | _ => cases hlength
  | conditional c t e =>
    cases u with
    | conditional c' t' e' =>
      obtain ⟨hc, hte⟩ := List.cons.inj hoperands
      obtain ⟨ht, he⟩ := List.cons.inj hte
      rw [unlined, unlined, hc, ht, (List.cons.inj he).1]
    | _ => cases hlength

/-! ### Renderings -/

def spaced (texts : List (List Char)) : List Char :=
  texts.flatMap (' ' :: ·)

def nodeText (label : List Char) (operands : List (List Char)) : List Char :=
  '(' :: (label ++ (spaced operands ++ [')']))

/-- The prefix form without a bound on depth. -/
def prefixText : Expr → List Char
  | .literal v => (v.literalText.toOption.getD "").toList
  | .grouping e => nodeText "group".toList [e.prefixText]
  | .unary op e => nodeText op.lexeme.toList [e.prefixText]
  | .binary l op r => nodeText op.lexeme.toList [l.prefixText, r.prefixText]
  | .conditional c t e => nodeText "?:".toList [c.prefixText, t.prefixText, e.prefixText]
  | .absent | .bare _ => []

theorem prefixText_of_operands {e : Expr} (h : e.operands ≠ []) :
    e.prefixText = nodeText e.label (e.operands.map prefixText) := by
  cases e with
  | literal _ | absent | bare _ => exact absurd rfl h
  | grouping _ | unary _ _ | binary _ _ _ | conditional _ _ _ => rfl

/-- **The prefix form of a tree that can be written is its text.** -/
theorem prefixForm_unbounded (a : Allowance Layer) {e : Expr} (h : e.Writable) :
    e.prefixForm a.unbounded = .ok (String.ofList e.prefixText) := by
  obtain ⟨hops, hlits⟩ := h
  induction e with
  | literal v =>
    have hseparated : Separated [] := trivial
    obtain ⟨text, htext, -⟩ := Value.readLiteral?_segments hlits hseparated
    rw [prefixForm, prefixText, htext]
    show (.ok text : Printed) = .ok (String.ofList text.toList)
    rw [String.ofList_toList]
  | grouping e ih =>
    show (e.prefixForm a.unbounded >>= fun inner => .ok ("(group " ++ inner ++ ")")) = _
    rw [ih hops hlits]
    refine congrArg Except.ok (String.toList_inj.mp ?_)
    simp [prefixText, nodeText, spaced]
  | unary op e ih =>
    show (e.prefixForm a.unbounded >>= fun right =>
      .ok ("(" ++ op.lexeme ++ " " ++ right ++ ")")) = _
    rw [ih hops.2.2 hlits]
    refine congrArg Except.ok (String.toList_inj.mp ?_)
    simp [prefixText, nodeText, spaced]
  | binary l op r ihl ihr =>
    show (l.prefixForm a.unbounded >>= fun left => r.prefixForm a.unbounded >>= fun right =>
      .ok ("(" ++ op.lexeme ++ " " ++ left ++ " " ++ right ++ ")")) = _
    rw [ihl hops.2.2.1 hlits.1, ihr hops.2.2.2 hlits.2]
    refine congrArg Except.ok (String.toList_inj.mp ?_)
    simp [prefixText, nodeText, spaced]
  | conditional c t e ihc iht ihe =>
    show (c.prefixForm a.unbounded >>= fun condition => t.prefixForm a.unbounded >>= fun thenText =>
      e.prefixForm a.unbounded >>= fun elseText =>
        .ok ("(?: " ++ condition ++ " " ++ thenText ++ " " ++ elseText ++ ")")) = _
    rw [ihc hops.1 hlits.1, iht hops.2.1 hlits.2.1, ihe hops.2.2 hlits.2.2]
    refine congrArg Except.ok (String.toList_inj.mp ?_)
    simp [prefixText, nodeText, spaced]
  | absent | bare _ => exact hops.elim

/-! ### Where a rendering ends -/

/-- Whether the rendering of `t` shows where it ends and what it is a rendering of. -/
def Delimited (t : Expr) : Prop :=
  ∀ {u : Expr} {rest rest' : List Char}, u.Writable → Separated rest → Separated rest' →
    t.prefixText ++ rest = u.prefixText ++ rest' → t.unlined = u.unlined ∧ rest = rest'

theorem separated_spaced (texts : List (List Char)) (rest : List Char) :
    Separated (spaced texts ++ ')' :: rest) := by
  cases texts with
  | nil => exact Or.inr (Or.inl rfl)
  | cons text texts => exact Or.inl rfl

/-- **Operands are told apart** one after the other, up to the closing parenthesis. -/
theorem map_unlined_of_spaced {ts : List Expr} (hts : ∀ t ∈ ts, t.Delimited) :
    ∀ {us : List Expr} {rest rest' : List Char}, (∀ u ∈ us, u.Writable) →
      spaced (ts.map prefixText) ++ ')' :: rest = spaced (us.map prefixText) ++ ')' :: rest' →
        ts.map unlined = us.map unlined ∧ rest = rest' := by
  induction ts with
  | nil =>
    intro us rest rest' _ h
    cases us with
    | nil => exact ⟨rfl, (List.cons.inj h).2⟩
    | cons u us => cases (List.cons.inj h).1
  | cons t ts ih =>
    intro us rest rest' hus h
    cases us with
    | nil => cases (List.cons.inj h).1
    | cons u us =>
      obtain ⟨ht, hts⟩ := List.forall_mem_cons.mp hts
      obtain ⟨hu, hus⟩ := List.forall_mem_cons.mp hus
      have hparts : t.prefixText ++ (spaced (ts.map prefixText) ++ ')' :: rest) =
          u.prefixText ++ (spaced (us.map prefixText) ++ ')' :: rest') := by
        simpa [spaced] using h
      obtain ⟨hfirst, hmore⟩ := ht hu (separated_spaced _ _) (separated_spaced _ _) hparts
      obtain ⟨hothers, hrest⟩ := ih hts hus hmore
      exact ⟨by rw [List.map_cons, List.map_cons, hfirst, hothers], hrest⟩

theorem label_inj {l l' rest rest' : List Char} (h : ' ' ∉ l) (h' : ' ' ∉ l')
    (heq : l ++ ' ' :: rest = l' ++ ' ' :: rest') : l = l' := by
  have hrun : ∀ l rest : List Char, ' ' ∉ l → (l ++ ' ' :: rest).takeWhile (· ≠ ' ') = l := by
    intro l rest hl
    have hspace : NotBegun (fun c => decide (c ≠ ' ')) (' ' :: rest) := rfl
    exact takeWhile_run (fun c hc => decide_eq_true fun hspace => hl (hspace ▸ hc)) hspace
  calc l = (l ++ ' ' :: rest).takeWhile (· ≠ ' ') := (hrun l rest h).symm
    _ = (l' ++ ' ' :: rest').takeWhile (· ≠ ' ') := by rw [heq]
    _ = l' := hrun l' rest' h'

theorem prefixText_literal_ne {v : Value} (hv : v.Writable) {rest more : List Char}
    (hrest : Separated rest) : (literal v).prefixText ++ rest ≠ '(' :: more := by
  intro h
  obtain ⟨text, htext, hread⟩ := Value.readLiteral?_segments hv hrest
  rw [prefixText, htext] at h
  have hnone : Value.readLiteral? (segments ('(' :: more)) = none := by
    rw [segments_punctuation rfl]
    cases segments more <;> rfl
  rw [show text.toList ++ rest = '(' :: more from h, hnone] at hread
  cases hread

theorem delimited_literal {v : Value} (hv : v.Writable) : (literal v).Delimited := by
  intro u rest rest' hu hrest hrest' h
  rcases hu.literal_or_operands with ⟨w, rfl, hw⟩ | hnode
  · obtain ⟨text, htext, hread⟩ := Value.readLiteral?_segments hv hrest
    obtain ⟨text', htext', hread'⟩ := Value.readLiteral?_segments hw hrest'
    rw [prefixText, prefixText, htext, htext'] at h
    rw [show text.toList ++ rest = text'.toList ++ rest' from h, hread'] at hread
    obtain ⟨hvalue, hsegments⟩ := Prod.mk.inj (Option.some.inj hread)
    exact ⟨congrArg Expr.literal hvalue.symm, segments_injective hsegments.symm⟩
  · rw [prefixText_of_operands hnode] at h
    exact absurd h (prefixText_literal_ne hv hrest)

/-- **A node shows where it ends**, if its operands do. -/
theorem delimited_node {t : Expr} (ht : t.OperatorsKnown) (hnode : t.operands ≠ [])
    (hoperands : ∀ o ∈ t.operands, o.Delimited) : t.Delimited := by
  intro u rest rest' hu hrest hrest' h
  rw [prefixText_of_operands hnode] at h
  rcases hu.literal_or_operands with ⟨w, rfl, hw⟩ | hnode'
  · exact absurd h.symm (prefixText_literal_ne hw hrest')
  · have hlist : ∀ {l : List Expr}, l ≠ [] → ∀ tail,
        ∃ more, spaced (l.map prefixText) ++ tail = ' ' :: more := by
      intro l hl tail
      cases l with
      | nil => exact absurd rfl hl
      | cons o os => exact ⟨_, rfl⟩
    rw [prefixText_of_operands hnode'] at h
    have htexts : t.label ++ (spaced (t.operands.map prefixText) ++ ')' :: rest) =
        u.label ++ (spaced (u.operands.map prefixText) ++ ')' :: rest') := by
      simpa [nodeText] using h
    obtain ⟨more, hmore⟩ := hlist hnode (')' :: rest)
    obtain ⟨more', hmore'⟩ := hlist hnode' (')' :: rest')
    have hlabel : t.label = u.label := by
      rw [hmore, hmore'] at htexts
      exact label_inj (space_notMem_label ht) (space_notMem_label hu.1) htexts
    rw [hlabel] at htexts
    obtain ⟨hsame, hends⟩ := map_unlined_of_spaced hoperands
      (fun o ho => hu.of_mem_operands ho) (List.append_cancel_left htexts)
    exact ⟨unlined_eq_of_operands ht hu.1 hnode hlabel hsame, hends⟩

/-- **Every rendering shows where it ends.** -/
theorem delimited (t : Expr) : t.Writable → t.Delimited := by
  induction t using operands_induction with
  | step t ih =>
    intro ht
    rcases ht.literal_or_operands with ⟨v, rfl, hv⟩ | hnode
    · exact delimited_literal hv
    · exact delimited_node ht.1 hnode fun o ho => ih o ho (ht.of_mem_operands ho)

/-! ### The prefix form -/

theorem prefixForm_unlined (e : Expr) : ∀ a : Allowance Layer,
    e.unlined.prefixForm a = e.prefixForm a := by
  induction e with
  | literal _ | absent | bare _ => intro a; rfl
  | grouping e ih =>
    intro a
    rw [unlined, prefixForm, prefixForm]
    simp only [ih]
  | unary op e ih =>
    intro a
    rw [unlined, prefixForm, prefixForm]
    simp only [ih]
    rfl
  | binary l op r ihl ihr =>
    intro a
    rw [unlined, prefixForm, prefixForm]
    simp only [ihl, ihr]
    rfl
  | conditional c t e ihc iht ihe =>
    intro a
    rw [unlined, prefixForm, prefixForm]
    simp only [ihc, iht, ihe]

theorem eq_prefixText_of_prefixForm {a : Allowance Layer} {e : Expr} (he : e.Writable)
    {text : String} (h : e.prefixForm a = .ok text) : text.toList = e.prefixText := by
  obtain ⟨frames, cost⟩ := a
  have hbounded := (e.bounded_prefixForm cost).mono frames none (by cases frames <;> trivial)
  have hunbounded : e.prefixForm ⟨none, cost⟩ = .ok (String.ofList e.prefixText) :=
    prefixForm_unbounded ⟨none, cost⟩ he
  rw [show e.prefixForm ⟨frames, cost⟩ = .ok text from h, hunbounded] at hbounded
  rcases hbounded with heq | hstop
  · rw [Except.ok.inj heq, String.toList_ofList]
  · cases hstop

/-- **The prefix form identifies a tree.**  A tree that can be written has a prefix form, the
nesting limit set aside.  Trees with one prefix form, whatever the limits they were printed
within, are the same up to the lines of their operators; and trees that are the same up to
lines have one prefix form. -/
theorem prefixForm_identifies (a b : Allowance Layer) {t u : Expr} (ht : t.Writable)
    (hu : u.Writable) :
    (∃ text, t.prefixForm a.unbounded = .ok text) ∧
      (∀ text, t.prefixForm a = .ok text → u.prefixForm b = .ok text → t.unlined = u.unlined) ∧
      (t.unlined = u.unlined → t.prefixForm a = u.prefixForm a) := by
  refine ⟨⟨_, prefixForm_unbounded a ht⟩, fun text htext hutext => ?_, fun h => ?_⟩
  · have heq : t.prefixText ++ [] = u.prefixText ++ [] := by
      rw [← eq_prefixText_of_prefixForm ht htext, ← eq_prefixText_of_prefixForm hu hutext]
    have hnil : Separated [] := trivial
    exact (delimited t ht hu hnil hnil heq).1
  · rw [← prefixForm_unlined t, h, prefixForm_unlined]

/-- A string that looks like operands less a negative zero, in parentheses of its own; its
prefix form is `(group (- ") (- 1 2" (- -0)))`. -/
def spelledLikeOperands (line : Int) : Expr :=
  .grouping (.binary (.literal (.string ") (- 1 2")) (.operator .minus line)
    (.unary (.operator .minus (line + 1)) (.literal (.number (.ofRank true 0)))))

theorem prefixForm_spelledLikeOperands :
    (spelledLikeOperands 1).Writable ∧ (spelledLikeOperands 7).Writable ∧
      (∃ text, (spelledLikeOperands 1).prefixForm Limits.standard.prefixPrinting.unbounded =
        .ok text) ∧
      (∀ text, (spelledLikeOperands 1).prefixForm Limits.standard.prefixPrinting = .ok text →
        (spelledLikeOperands 7).prefixForm Limits.standard.prefixPrinting = .ok text →
          (spelledLikeOperands 1).unlined = (spelledLikeOperands 7).unlined) ∧
      ((spelledLikeOperands 1).unlined = (spelledLikeOperands 7).unlined →
        (spelledLikeOperands 1).prefixForm Limits.standard.prefixPrinting =
          (spelledLikeOperands 7).prefixForm Limits.standard.prefixPrinting) := by
  have hwritable : ∀ line, (spelledLikeOperands line).Writable := by
    intro line
    refine ⟨⟨rfl, rfl, trivial, Or.inr rfl, rfl, trivial⟩, ?_, trivial⟩
    show '"' ∉ ") (- 1 2".toList
    decide
  exact ⟨hwritable 1, hwritable 7,
    prefixForm_identifies _ Limits.standard.prefixPrinting (hwritable 1) (hwritable 7)⟩

end Expr

end LoxCalc
