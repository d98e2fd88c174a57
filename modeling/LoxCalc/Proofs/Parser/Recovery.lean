import LoxCalc.Proofs.Script.SourceTrees
import Mathlib.Data.List.Forall2
import Mathlib.Order.Bounds.Basic

/-!
# Calls of one parser

A host may call the same parser again and again: it parses from where the parser stands, or
skips to where a statement may begin.  A call moves the parser forward or leaves it where it
is, and **no call moves it past the first end of input** (`Standing.answer`).

So what stands behind that token has no part in anything (`SamePlace.answer`), although the parser
has the whole list: two lists that are the same up to there are not told apart.  In particular the
last token, to which `Parser.previous` goes round before the first token, decides nothing.  There
is one thing that shows it, the number of tokens in the trace of a parse.

A parse that fails may read nothing, and a host that recovers from failures gets on only
because it skips in between.  Skipping stops at the first *boundary* it comes to
(`isLeast_skip`); it moves by a token at least, so as many rounds as there are tokens
bring any parser to the end of input.

* `isLeast_synchronize`: where a parser skips to.
* `run_sound`, `run_same`: what a sequence of calls keeps, and what it does not depend on.
* `calls_sound`: all that is said of calls.
-/

namespace LoxCalc

def Kind.statementWords : List Kind :=
  [.classWord, .funWord, .varWord, .forWord, .ifWord, .whileWord, .printWord, .returnWord]

theorem Kind.beginsStatement_iff (k : Kind) : k.beginsStatement = true ↔ k ∈ statementWords := by
  cases k <;> decide

namespace TokenStream

def endIndex (tokens : List Token) : Nat :=
  tokens.findIdx (·.kind = .eof)

theorem endIndex_append {before behind : List Token} {stop : Token}
    (hbefore : ∀ t ∈ before, t.kind ≠ .eof) (hstop : stop.kind = .eof) :
    endIndex (before ++ stop :: behind) = before.length := by
  rw [endIndex]
  induction before with
  | nil => simp [List.findIdx_cons, hstop]
  | cons t ts ih =>
    have hnot : t.kind ≠ .eof := hbefore t List.mem_cons_self
    have hrest := ih fun u hu => hbefore u (List.mem_cons_of_mem t hu)
    simp [List.findIdx_cons, hnot, hrest]

theorem length_body (s : TokenStream) : s.body.length = endIndex s.tokens := by
  have hindex : endIndex (s.body ++ s.stop :: s.behind) = s.body.length :=
    endIndex_append (fun t => kind_of_mem_body) s.stop_kind
  rw [← s.tokens_eq] at hindex
  exact hindex.symm

/-- Whether two streams are the same up to their first end of input. -/
structure Agree (s s' : TokenStream) : Prop where
  body : s.body = s'.body
  stop : s.stop = s'.stop

variable {s s' : TokenStream}

theorem Agree.tokenAt (h : Agree s s') {k : Nat} (hk : k ≤ s.body.length) :
    s.tokenAt k = s'.tokenAt k := by
  rcases Nat.lt_or_eq_of_le hk with hlt | rfl
  · have hget : s.body[k]? = some s.body[k] := List.getElem?_eq_getElem hlt
    have hget' : s'.body[k]? = some s.body[k] := by rw [← h.body, hget]
    rw [tokenAt_body hget, tokenAt_body hget']
  · show s.stop = _
    rw [h.stop, h.body]
    rfl

theorem Agree.of_take {tokens behind : List Token} (hs : ofTokens? tokens = some s)
    (hs' : ofTokens? (tokens.take (endIndex tokens + 1) ++ behind) = some s') : Agree s s' := by
  have htokens : tokens = s.body ++ s.stop :: s.behind := by
    rw [← ofTokens?_eq_some hs]
    exact s.tokens_eq
  have htokens' : s'.tokens = s.body ++ s.stop :: behind := by
    rw [ofTokens?_eq_some hs', ← ofTokens?_eq_some hs, ← s.length_body, s.tokens_eq,
      List.take_length_add_append, List.append_assoc]
    rfl
  have hbody : s'.body = s.body := by
    have hall : ∀ t ∈ s.body, decide (t.kind ≠ .eof) = true :=
      fun t ht => decide_eq_true (kind_of_mem_body ht)
    show s'.tokens.takeWhile _ = s.body
    rw [htokens', List.takeWhile_append_of_pos hall,
      List.takeWhile_cons_of_neg (by simp [s.stop_kind]), List.append_nil]
  have hstop : s'.body ++ s'.stop :: s'.behind = s'.body ++ s.stop :: behind := by
    rw [← s'.tokens_eq, hbody]
    exact htokens'
  exact ⟨hbody.symm, (List.cons.inj (List.append_cancel_left hstop)).1.symm⟩

end TokenStream

/-- Whether two entries are the same, but for the number of tokens in the trace of a parse. -/
inductive Entry.Like : Entry → Entry → Prop where
  | refl (e : Entry) : Like e e
  | parsed (m n : Nat) : Like (.note (.parsed m)) (.note (.parsed n))

theorem Entry.forall₂_like_refl (es : List Entry) : List.Forall₂ Entry.Like es es :=
  List.forall₂_same.mpr fun e _ => .refl e

namespace Parser

open TokenStream (endIndex)

/-! ### Calls -/

inductive Call where
  | parse
  | synchronize
  deriving DecidableEq, Repr

section Calls

variable {σ : Type} [Sink σ]

def answer (a : Allowance Opening) (p : Parser) (r : Reporter σ) :
    Call → Option Expr × Parser × Reporter σ
  | .parse => p.parseReporting a r
  | .synchronize => (none, p.synchronize, r)

def run (a : Allowance Opening) : Parser → Reporter σ → List Call →
    List (Option Expr × Parser × Reporter σ)
  | _, _, [] => []
  | p, r, call :: calls =>
    let next := p.answer a r call
    next :: run a next.2.1 next.2.2 calls

/-- A round of recovery: a parse, and then on to where a statement may begin. -/
def round (a : Allowance Opening) (state : Parser × Reporter σ) : Parser × Reporter σ :=
  let next := state.1.parseReporting a state.2
  (next.2.1.synchronize, next.2.2)

end Calls

/-! ### Skipping -/

/-- Whether input ends at a position of a list of tokens, or a statement may begin there. -/
def Boundary (tokens : List Token) (q : Nat) : Prop :=
  ∃ t, tokens[q]? = some t ∧
    (t.kind = .eof ∨ t.kind ∈ Kind.statementWords ∨
      ∃ u, tokens[q - 1]? = some u ∧ u.kind = .semicolon)

section Skipping

variable {p : Parser}

theorem getElem?_of_le (hwithin : p.position ≤ p.stream.body.length) {q : Nat}
    (hq : q ≤ p.position) : p.stream.tokens[q]? = some (p.stream.tokenAt q) :=
  TokenStream.getElem?_tokens
    (Nat.lt_of_le_of_lt (Nat.le_trans hq hwithin) p.stream.length_body_lt)

theorem atEnd_iff_eq (hwithin : p.position ≤ p.stream.body.length) :
    p.atEnd = true ↔ p.position = p.stream.body.length := by
  rw [atEnd_iff, current]
  rcases Nat.lt_or_eq_of_le hwithin with hlt | heq
  · have hget : p.stream.body[p.position]? = some p.stream.body[p.position] :=
      List.getElem?_eq_getElem hlt
    rw [TokenStream.tokenAt_body hget]
    exact iff_of_false (TokenStream.kind_of_mem_body (List.mem_of_getElem? hget))
      (Nat.ne_of_lt hlt)
  · rw [heq]
    exact iff_of_true p.stream.stop_kind rfl

theorem boundary_length_body (s : TokenStream) : Boundary s.tokens s.body.length :=
  ⟨_, TokenStream.getElem?_tokens s.length_body_lt, Or.inl s.stop_kind⟩

/-- What the parser looks at says whether it stands at a boundary.  It has taken a token, so the
previous one is a token of the list. -/
theorem boundary_iff (hwithin : p.position ≤ p.stream.body.length) (hbegun : 0 < p.position) :
    Boundary p.stream.tokens p.position ↔
      p.atEnd = true ∨ p.previous.kind = .semicolon ∨ p.current.kind.beginsStatement = true := by
  have hcurrent := getElem?_of_le hwithin (Nat.le_refl _)
  have hprevious : p.stream.tokens[p.position - 1]? = some p.previous := by
    obtain ⟨k, hk⟩ := Nat.exists_eq_succ_of_ne_zero (Nat.ne_of_gt hbegun)
    rw [getElem?_of_le hwithin (Nat.sub_le _ _), previous, hk]
    rfl
  rw [atEnd_iff, Kind.beginsStatement_iff]
  constructor
  · rintro ⟨t, ht, hkinds⟩
    obtain rfl : p.current = t := Option.some.inj (hcurrent.symm.trans ht)
    rcases hkinds with heof | hword | ⟨u, hu, hsemicolon⟩
    · exact Or.inl heof
    · exact Or.inr (Or.inr hword)
    · obtain rfl : p.previous = u := Option.some.inj (hprevious.symm.trans hu)
      exact Or.inr (Or.inl hsemicolon)
  · rintro (heof | hsemicolon | hword)
    · exact ⟨_, hcurrent, Or.inl heof⟩
    · exact ⟨_, hcurrent, Or.inr (Or.inr ⟨_, hprevious, hsemicolon⟩)⟩
    · exact ⟨_, hcurrent, Or.inr (Or.inl hword)⟩

/-- **Skipping** goes to the first boundary, which may be where the parser stands. -/
theorem isLeast_skip (hwithin : p.position ≤ p.stream.body.length) (hbegun : 0 < p.position) :
    p.skip.stream = p.stream ∧
      IsLeast {q | p.position ≤ q ∧ Boundary p.stream.tokens q} p.skip.position := by
  fun_induction skip p with
  | case1 p hend =>
    exact ⟨rfl, ⟨Nat.le_refl _, (boundary_iff hwithin hbegun).mpr (Or.inl hend)⟩,
      fun q hq => hq.1⟩
  | case2 p hend hstop =>
    exact ⟨rfl, ⟨Nat.le_refl _, (boundary_iff hwithin hbegun).mpr (Or.inr hstop)⟩,
      fun q hq => hq.1⟩
  | case3 p hend hstop ih =>
    have hnot : ¬ Boundary p.stream.tokens p.position := by
      rw [boundary_iff hwithin hbegun]
      exact not_or.mpr ⟨hend, hstop⟩
    have hlt : p.position ≠ p.stream.body.length := fun heq => hend ((atEnd_iff_eq hwithin).mpr heq)
    rw [next_of_not_atEnd hend] at ih ⊢
    obtain ⟨hstream, hleast⟩ := ih (by rw [position_advance]; exact Nat.lt_of_le_of_ne hwithin hlt)
      (Nat.succ_pos _)
    refine ⟨hstream, ⟨Nat.le_of_succ_le hleast.1.1, hleast.1.2⟩, fun q ⟨hle, hq⟩ => ?_⟩
    rcases Nat.lt_or_eq_of_le hle with hafter | rfl
    · exact hleast.2 ⟨hafter, hq⟩
    · exact absurd hq hnot

/-- **At the end of input** a parser does not move. -/
theorem synchronize_of_end (hposition : p.position = p.stream.body.length) :
    p.synchronize = p := by
  have hend : p.atEnd = true := (atEnd_iff_eq (Nat.le_of_eq hposition)).mpr hposition
  rw [synchronize, next_of_atEnd hend, skip, if_pos hend]

/-- **Before the end of input** a parser skips to the first boundary ahead of it. -/
theorem isLeast_synchronize (hposition : p.position < p.stream.body.length) :
    p.synchronize.stream = p.stream ∧
      IsLeast {q | p.position < q ∧ Boundary p.stream.tokens q} p.synchronize.position := by
  have hend : ¬ p.atEnd = true := by
    rw [atEnd_iff_eq (Nat.le_of_lt hposition)]
    exact Nat.ne_of_lt hposition
  rw [synchronize, next_of_not_atEnd hend]
  exact isLeast_skip (p := p.advance 1) hposition (Nat.succ_pos _)

end Skipping

/-! ### Where a parser stands -/

/-- Whether a parser stands in a list of tokens, not past its first end of input. -/
structure Standing (tokens : List Token) (p : Parser) : Prop where
  stream : p.stream.tokens = tokens
  within : p.position ≤ p.stream.body.length

theorem parse_eq_advance (a : Allowance Opening) (p : Parser) :
    (p.parse a).2 = p.advance (read a .initial p.rest).count := by
  rw [parse_eq]

theorem rest_eq_drop {p : Parser} (hwithin : p.position ≤ p.stream.body.length) :
    p.rest = p.stream.body.drop p.position := by
  have hall : ∀ t ∈ p.stream.body.drop p.position, decide (t.kind ≠ .eof) = true :=
    fun t ht => decide_eq_true (TokenStream.kind_of_mem_body (List.mem_of_mem_drop ht))
  rw [rest, p.stream.tokens_eq, List.drop_append_of_le_length hwithin,
    List.takeWhile_append_of_pos hall,
    List.takeWhile_cons_of_neg (by simp [p.stream.stop_kind]), List.append_nil]

theorem length_rest {p : Parser} (hwithin : p.position ≤ p.stream.body.length) :
    p.position + p.rest.length = p.stream.body.length := by
  rw [rest_eq_drop hwithin, List.length_drop]
  omega

namespace Standing

variable {tokens : List Token} {p : Parser}

theorem length_body (h : Standing tokens p) : p.stream.body.length = endIndex tokens := by
  rw [p.stream.length_body, h.stream]

/-- **No token is looked for behind the list**: up to the position of a parser there are tokens. -/
theorem getElem? (h : Standing tokens p) {q : Nat} (hq : q ≤ p.position) :
    tokens[q]? = some (p.stream.tokenAt q) := by
  rw [← h.stream]
  exact getElem?_of_le h.within hq

theorem advance (h : Standing tokens p) {count : Nat} (hcount : count ≤ p.rest.length) :
    Standing tokens (p.advance count) := by
  refine ⟨h.stream, ?_⟩
  have hlength := length_rest h.within
  show p.position + count ≤ p.stream.body.length
  omega

theorem parse (h : Standing tokens p) (a : Allowance Opening) :
    Standing tokens (p.parse a).2 ∧ p.position ≤ (p.parse a).2.position := by
  rw [parse_eq_advance]
  exact ⟨h.advance (read_count_le a p.rest .initial), Nat.le_add_right _ _⟩

theorem synchronize (h : Standing tokens p) :
    Standing tokens p.synchronize ∧ p.position ≤ p.synchronize.position ∧
      (p.position < p.stream.body.length → p.position < p.synchronize.position) := by
  rcases Nat.lt_or_eq_of_le h.within with hlt | heq
  · obtain ⟨hstream, hleast⟩ := isLeast_synchronize hlt
    have hle : p.synchronize.position ≤ p.stream.body.length :=
      hleast.2 ⟨hlt, boundary_length_body p.stream⟩
    refine ⟨⟨?_, ?_⟩, Nat.le_of_lt hleast.1.1, fun _ => hleast.1.1⟩
    · rw [hstream]
      exact h.stream
    · rw [hstream]
      exact hle
  · rw [synchronize_of_end heq]
    exact ⟨h, Nat.le_refl _, fun hlt => absurd heq (Nat.ne_of_lt hlt)⟩

/-- **A call keeps the parser within the tokens** and does not move it back. -/
theorem answer (h : Standing tokens p) {σ : Type} [Sink σ] (a : Allowance Opening)
    (r : Reporter σ) (call : Call) :
    Standing tokens (p.answer a r call).2.1 ∧ p.position ≤ (p.answer a r call).2.1.position := by
  cases call with
  | parse =>
    rw [Parser.answer, parseReporting_eq]
    exact h.parse a
  | synchronize => exact ⟨h.synchronize.1, h.synchronize.2.1⟩

end Standing

/-! ### What is behind the end of input -/

/-- Whether two parsers stand at the same place of lists that are the same up to the first end of
input. -/
structure SamePlace (p p' : Parser) : Prop where
  agree : TokenStream.Agree p.stream p'.stream
  position : p.position = p'.position
  within : p.position ≤ p.stream.body.length

namespace SamePlace

variable {p p' : Parser}

theorem within' (h : SamePlace p p') : p'.position ≤ p'.stream.body.length := by
  rw [← h.position, ← h.agree.body]
  exact h.within

theorem current (h : SamePlace p p') : p.current = p'.current := by
  rw [Parser.current, Parser.current, ← h.position, h.agree.tokenAt h.within]

theorem rest (h : SamePlace p p') : p.rest = p'.rest := by
  rw [rest_eq_drop h.within, rest_eq_drop h.within', h.position, h.agree.body]

theorem advance (h : SamePlace p p') {count : Nat} (hcount : count ≤ p.rest.length) :
    SamePlace (p.advance count) (p'.advance count) := by
  refine ⟨h.agree, ?_, ?_⟩
  · rw [position_advance, position_advance, h.position]
  · have hlength := length_rest h.within
    show p.position + count ≤ p.stream.body.length
    omega

theorem boundary (h : SamePlace p p') {q : Nat} (hq : q ≤ p.stream.body.length)
    (hb : Boundary p.stream.tokens q) : Boundary p'.stream.tokens q := by
  have hsame : ∀ k ≤ q, p.stream.tokens[k]? = p'.stream.tokens[k]? := by
    intro k hk
    have hle := Nat.le_trans hk hq
    rw [TokenStream.getElem?_tokens (Nat.lt_of_le_of_lt hle p.stream.length_body_lt),
      TokenStream.getElem?_tokens
        (Nat.lt_of_le_of_lt (h.agree.body ▸ hle) p'.stream.length_body_lt), h.agree.tokenAt hle]
  obtain ⟨t, ht, hkinds⟩ := hb
  refine ⟨t, by rw [← hsame q (Nat.le_refl _), ht], ?_⟩
  rwa [hsame (q - 1) (Nat.sub_le _ _)] at hkinds

theorem symm (h : SamePlace p p') : SamePlace p' p :=
  ⟨⟨h.agree.body.symm, h.agree.stop.symm⟩, h.position.symm, h.within'⟩

theorem synchronize_le (h : SamePlace p p') (hlt : p.position < p.stream.body.length) :
    p'.synchronize.position ≤ p.synchronize.position := by
  have hleast := (isLeast_synchronize hlt).2
  have hlt' : p'.position < p'.stream.body.length := by
    rw [← h.position, ← h.agree.body]
    exact hlt
  have hle := hleast.2 ⟨hlt, boundary_length_body p.stream⟩
  exact (isLeast_synchronize hlt').2.2 ⟨h.position ▸ hleast.1.1, h.boundary hle hleast.1.2⟩

theorem synchronize (h : SamePlace p p') : SamePlace p.synchronize p'.synchronize := by
  rcases Nat.lt_or_eq_of_le h.within with hlt | heq
  · have hlt' : p'.position < p'.stream.body.length := by
      rw [← h.position, ← h.agree.body]
      exact hlt
    obtain ⟨hstream, hleast⟩ := isLeast_synchronize hlt
    obtain ⟨hstream', -⟩ := isLeast_synchronize hlt'
    refine ⟨?_, Nat.le_antisymm (h.symm.synchronize_le hlt') (h.synchronize_le hlt), ?_⟩
    · rw [hstream, hstream']
      exact h.agree
    · rw [hstream]
      exact hleast.2 ⟨hlt, boundary_length_body p.stream⟩
  · have heq' : p'.position = p'.stream.body.length := by
      rw [← h.position, ← h.agree.body]
      exact heq
    rw [synchronize_of_end heq, synchronize_of_end heq']
    exact h

theorem entries (h : SamePlace p p') (a : Allowance Opening) :
    List.Forall₂ Entry.Like (p.entries a) (p'.entries a) := by
  have htoken := (h.advance (read_count_le a p.rest .initial)).current
  rw [Parser.entries, Parser.entries, ← h.rest, ← htoken]
  refine List.rel_append (Entry.forall₂_like_refl _) ?_
  cases (read a .initial p.rest).result with
  | ok tree => exact .cons (.parsed _ _) .nil
  | error halt =>
    cases halt with
    | raised cause => exact Entry.forall₂_like_refl _
    | exhausted => exact Entry.forall₂_like_refl _

/-- **A call finds the same** whatever is behind the end of input. -/
theorem answer (h : SamePlace p p') (a : Allowance Opening) (call : Call) :
    ∃ es es', List.Forall₂ Entry.Like es es' ∧ ∀ {σ : Type} [Sink σ] (r r' : Reporter σ),
      (p.answer a r call).1 = (p'.answer a r' call).1 ∧
      SamePlace (p.answer a r call).2.1 (p'.answer a r' call).2.1 ∧
      (p.answer a r call).2.2 = r.enterAll es ∧ (p'.answer a r' call).2.2 = r'.enterAll es' := by
  cases call with
  | synchronize => exact ⟨[], [], .nil, fun r r' => ⟨rfl, h.synchronize, rfl, rfl⟩⟩
  | parse =>
    refine ⟨p.entries a, p'.entries a, h.entries a, fun r r' => ?_⟩
    have hplace := h.advance (read_count_le a p.rest .initial)
    rw [Parser.answer, Parser.answer, parseReporting_eq, parseReporting_eq, parse_eq, parse_eq,
      ← h.rest, ← hplace.current]
    exact ⟨rfl, hplace, rfl, rfl⟩

end SamePlace

/-! ### Sequences of calls -/

section Runs

variable {σ : Type} [Sink σ] {tokens : List Token}

/-- **Calls in sequence**: each finds the parser within the tokens, and no further back than
the call before. -/
theorem run_sound (a : Allowance Opening) (calls : List Call) :
    ∀ {p : Parser} (r : Reporter σ), Standing tokens p →
      (p.position :: (p.run a r calls).map (·.2.1.position)).Pairwise (· ≤ ·) ∧
        ∀ next ∈ p.run a r calls, Standing tokens next.2.1 := by
  induction calls with
  | nil =>
    intro p r _
    exact ⟨List.pairwise_singleton _ _, fun next hnext => absurd hnext List.not_mem_nil⟩
  | cons call calls ih =>
    intro p r h
    obtain ⟨hnext, hle⟩ := h.answer a r call
    obtain ⟨hpairwise, hstanding⟩ := ih (p.answer a r call).2.2 hnext
    rw [run, List.map_cons]
    refine ⟨List.pairwise_cons.mpr ⟨fun q hq => ?_, hpairwise⟩, fun next hmem => ?_⟩
    · rcases List.mem_cons.mp hq with rfl | hq
      · exact hle
      · exact Nat.le_trans hle ((List.pairwise_cons.mp hpairwise).1 q hq)
    · rcases List.mem_cons.mp hmem with rfl | hmem
      · exact hnext
      · exact hstanding next hmem

/-- Whether two calls give the same tree and leave the parser at the same position and token, and
whether `r` has then been given the same entries, but for the number of tokens in the traces of
parses. -/
structure SameCall (r : Reporter σ) (x y : Option Expr × Parser × Reporter σ) : Prop where
  tree : x.1 = y.1
  position : x.2.1.position = y.2.1.position
  token : x.2.1.current = y.2.1.current
  reports : ∃ es es', List.Forall₂ Entry.Like es es' ∧
    x.2.2 = r.enterAll es ∧ y.2.2 = r.enterAll es'

/-- **Calls in sequence find the same** whatever is behind the end of input. -/
theorem run_same (a : Allowance Opening) (r : Reporter σ) (calls : List Call) :
    ∀ {p p' : Parser} {es es' : List Entry}, SamePlace p p' → List.Forall₂ Entry.Like es es' →
      List.Forall₂ (SameCall r) (p.run a (r.enterAll es) calls)
        (p'.run a (r.enterAll es') calls) := by
  induction calls with
  | nil => exact fun _ _ => .nil
  | cons call calls ih =>
    intro p p' es es' hplace hsame
    obtain ⟨fs, fs', hlike, hanswer⟩ := hplace.answer a call
    obtain ⟨htree, hnext, hreports, hreports'⟩ := hanswer (r.enterAll es) (r.enterAll es')
    rw [← Reporter.enterAll_append] at hreports hreports'
    have hentries := List.rel_append hsame hlike
    rw [run, run, hreports, hreports']
    exact .cons ⟨htree, hnext.position, hnext.current, _, _, hentries, hreports, hreports'⟩
      (ih hnext hentries)

theorem round_advances (a : Allowance Opening) {state : Parser × Reporter σ}
    (h : Standing tokens state.1) :
    Standing tokens (round a state).1 ∧
      min (endIndex tokens) (state.1.position + 1) ≤ (round a state).1.position := by
  obtain ⟨p, r⟩ := state
  obtain ⟨hparse, hle⟩ := h.parse a
  obtain ⟨hsync, hle', hlt⟩ := hparse.synchronize
  have hround : (round a (p, r)).1 = (p.parse a).2.synchronize := by
    rw [round, parseReporting_eq]
  have hwithin := hparse.within
  rw [hparse.length_body] at hlt hwithin
  rw [hround]
  refine ⟨hsync, ?_⟩
  rcases Nat.lt_or_eq_of_le hwithin with hbefore | hend
  · exact Nat.le_trans (Nat.min_le_right _ _)
      (Nat.le_trans (Nat.succ_le_succ hle) (hlt hbefore))
  · rw [← hend]
    exact Nat.le_trans (Nat.min_le_left _ _) hle'

/-- **Rounds of recovery** move a parser by at least as many tokens. -/
theorem rounds_advance (a : Allowance Opening) (n : Nat) : ∀ state : Parser × Reporter σ,
    Standing tokens state.1 →
      Standing tokens (Nat.iterate (round a) n state).1 ∧
        min (endIndex tokens) (state.1.position + n) ≤
          (Nat.iterate (round a) n state).1.position := by
  induction n with
  | zero =>
    intro state h
    exact ⟨h, Nat.min_le_right _ _⟩
  | succ n ih =>
    intro state h
    obtain ⟨hstanding, hround⟩ := round_advances a h
    obtain ⟨hlast, hle⟩ := ih _ hstanding
    refine ⟨hlast, Nat.le_trans (Nat.le_min.mpr ⟨Nat.min_le_left _ _, ?_⟩) hle⟩
    rcases Nat.le_total (endIndex tokens) (state.1.position + 1) with hend | hend
    · rw [Nat.min_eq_left hend] at hround
      exact Nat.le_trans (Nat.min_le_left _ _) (Nat.le_trans hround (Nat.le_add_right _ _))
    · rw [Nat.min_eq_right hend] at hround
      omega

/-- **A parser stays sound under any calls.**  In a list that ends in an end of input, calls
in sequence find the parser at positions that do not decrease and are not behind the first
end of input, and up to each of them there are tokens.  With other tokens behind that end of
input, and another last token, the calls give the same trees and stop at the same positions and
tokens, and they report the same.  To synchronize reports nothing; at the end of input the
parser stays, and before it goes to the first boundary ahead.  So as many rounds of recovery
as there are tokens left bring it to the end of input. -/
theorem calls_sound {tokens : List Token} (hend : tokens.getLast?.map Token.kind = some .eof)
    (a : Allowance Opening) (r : Reporter σ) :
    ∃ s, TokenStream.ofTokens? tokens = some s ∧
      (∀ calls,
        (0 :: ((ofStream s).run a r calls).map (·.2.1.position)).Pairwise (· ≤ ·) ∧
        ∀ next ∈ (ofStream s).run a r calls, Standing tokens next.2.1 ∧
          next.2.1.position ≤ endIndex tokens ∧
          ∀ q ≤ next.2.1.position, tokens[q]? = some (next.2.1.stream.tokenAt q)) ∧
      (∀ behind,
        (tokens.take (endIndex tokens + 1) ++ behind).getLast?.map Token.kind = some .eof →
        ∃ s', TokenStream.ofTokens? (tokens.take (endIndex tokens + 1) ++ behind) = some s' ∧
          ∀ calls, List.Forall₂ (SameCall r) ((ofStream s).run a r calls)
            ((ofStream s').run a r calls)) ∧
      ∀ p, Standing tokens p →
        (p.answer a r .synchronize).2.2 = r ∧
        (p.position = endIndex tokens → p.synchronize = p) ∧
        (p.position < endIndex tokens →
          IsLeast {q | p.position < q ∧ Boundary tokens q} p.synchronize.position) ∧
        ∀ n, endIndex tokens ≤ p.position + n →
          (Nat.iterate (round a) n (p, r)).1.position = endIndex tokens := by
  obtain ⟨s, hs, -⟩ := TokenStream.ofTokens?_of_getLast? hend
  have hstart : Standing tokens (ofStream s) := ⟨TokenStream.ofTokens?_eq_some hs, Nat.zero_le _⟩
  refine ⟨s, hs, fun calls => ?_, fun behind hend' => ?_, fun p hp => ?_⟩
  · obtain ⟨hpairwise, hstanding⟩ := run_sound a calls r hstart
    refine ⟨hpairwise, fun next hnext => ⟨hstanding next hnext, ?_, fun q hq => ?_⟩⟩
    · rw [← (hstanding next hnext).length_body]
      exact (hstanding next hnext).within
    · exact (hstanding next hnext).getElem? hq
  · obtain ⟨s', hs', -⟩ := TokenStream.ofTokens?_of_getLast? hend'
    have hplace : SamePlace (ofStream s) (ofStream s') := ⟨.of_take hs hs', rfl, Nat.zero_le _⟩
    exact ⟨s', hs', fun calls => run_same a r calls hplace .nil⟩
  · have hbody := hp.length_body
    refine ⟨rfl, fun hposition => ?_, fun hposition => ?_, fun n hn => ?_⟩
    · exact synchronize_of_end (hposition.trans hbody.symm)
    · rw [← hp.stream]
      exact (isLeast_synchronize (hbody ▸ hposition)).2
    · obtain ⟨hlast, hle⟩ := rounds_advance a n (p, r) hp
      have hwithin := hlast.within
      rw [hlast.length_body] at hwithin
      dsimp only at hle
      omega

end Runs

/-- The tokens of `+ ; 2 print`, and another end of input behind the first one. -/
def twoEnds : List Token :=
  [.operator .plus 1, .operator .semicolon 1, .ofKind .number, .operator .printWord 2,
    .endOfInput 2, .operator .nilWord 3, .endOfInput 3]

theorem calls_sound_twoEnds :
    twoEnds.getLast?.map Token.kind = some .eof ∧
      ∃ s, TokenStream.ofTokens? twoEnds = some s ∧
        IsLeast {q | 0 < q ∧ Boundary twoEnds q} (ofStream s).synchronize.position ∧
        (Nat.iterate (round Limits.standard.parsing) 4
          (ofStream s, Reporter.fresh (Collected.mk #[]))).1.position = 4 := by
  have hend : twoEnds.getLast?.map Token.kind = some .eof := by decide
  have hindex : endIndex twoEnds = 4 := by decide
  obtain ⟨s, hs, -, -, hstanding⟩ :=
    calls_sound hend Limits.standard.parsing (Reporter.fresh (Collected.mk #[]))
  obtain ⟨-, -, hleast, hrounds⟩ := hstanding (ofStream s)
    ⟨TokenStream.ofTokens?_eq_some hs, Nat.zero_le _⟩
  rw [hindex] at hleast hrounds
  exact ⟨hend, s, hs, hleast (Nat.zero_lt_succ 3), hrounds 4 (Nat.le_add_left 4 0)⟩

end Parser

end LoxCalc
