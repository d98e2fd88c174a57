import LoxCalc.Proofs.Reporter.Entries

/-!
# What a parser reads

A parser stands at a position of a whole list of tokens and looks at the token there and at the
one before it.  **It reads what is ahead of it, up to the next end of input, and nothing else**:
`read` goes along that list alone, and a walk comes to the same end (`walk_eq`).  What lies behind
the end of input, and the last token that stands in for the one before the first, have no part in
it, because a token is the previous one only after it has been taken (`previous_next`).

* `TokenStream.tokens_eq`: a list of tokens up to its first end of input, and behind it.
* `walk_eq`: the walk of a parser and the reading of a list.
* `parse_eq`, `parseReporting_eq`: a parse, its answer and its entries.
-/

namespace LoxCalc

open Entry

/-! ### Streams -/

namespace TokenStream

variable (s : TokenStream)

def body : List Token :=
  s.tokens.takeWhile (·.kind ≠ .eof)

def stop : Token :=
  s.tokenAt s.body.length

def behind : List Token :=
  s.tokens.drop (s.body.length + 1)

variable {s}

theorem kind_of_mem_body {t : Token} (ht : t ∈ s.body) : t.kind ≠ .eof :=
  of_decide_eq_true (List.all_eq_true.mp List.all_takeWhile t ht)

theorem exists_dropWhile (s : TokenStream) : ∃ stop behind,
    s.tokens.dropWhile (·.kind ≠ .eof) = stop :: behind ∧ stop.kind = .eof := by
  have hsplit := List.takeWhile_append_dropWhile (p := (·.kind ≠ .eof)) (l := s.tokens)
  have hstop := List.head?_dropWhile_not (·.kind ≠ .eof) s.tokens
  cases hrest : s.tokens.dropWhile (·.kind ≠ .eof) with
  | nil =>
    rw [hrest, List.append_nil] at hsplit
    have hlast : s.last ∈ s.body := by
      rw [body, hsplit]
      exact List.getLast_mem _
    exact absurd s.last_kind (kind_of_mem_body hlast)
  | cons stop behind =>
    rw [hrest] at hstop
    exact ⟨stop, behind, rfl, by simpa using hstop⟩

theorem tokenAt_of_getElem? {k : Nat} {t : Token} (h : s.tokens[k]? = some t) :
    s.tokenAt k = t := by
  rw [tokenAt, List.getD_eq_getElem?_getD, h, Option.getD_some]

/-- **A list of tokens** goes up to its first end of input, and on behind it. -/
theorem tokens_eq (s : TokenStream) : s.tokens = s.body ++ s.stop :: s.behind := by
  obtain ⟨stop, behind, hdrop, -⟩ := s.exists_dropWhile
  have hsplit : s.tokens = s.body ++ stop :: behind := by
    rw [← hdrop]
    exact List.takeWhile_append_dropWhile.symm
  have hstop : s.stop = stop := by
    refine tokenAt_of_getElem? ?_
    rw [hsplit, List.getElem?_append_right (Nat.le_refl _), Nat.sub_self]
    rfl
  have hbehind : s.behind = behind := by
    rw [TokenStream.behind, hsplit, List.drop_length_add_append]
    rfl
  rw [hstop, hbehind]
  exact hsplit

theorem stop_kind (s : TokenStream) : s.stop.kind = .eof := by
  obtain ⟨stop, behind, hdrop, hkind⟩ := s.exists_dropWhile
  have hsplit : s.body ++ s.stop :: s.behind = s.body ++ stop :: behind := by
    rw [← s.tokens_eq, ← hdrop]
    exact List.takeWhile_append_dropWhile.symm
  rw [(List.cons.inj (List.append_cancel_left hsplit)).1]
  exact hkind

theorem ofTokens?_eq_some {tokens : List Token} (h : ofTokens? tokens = some s) :
    s.tokens = tokens := by
  rw [ofTokens?] at h
  split at h
  · cases h
    rfl
  · cases h

/-- **A list of tokens that ends in an end of input is a stream.** -/
theorem ofTokens?_of_getLast? {tokens : List Token}
    (h : tokens.getLast?.map Token.kind = some .eof) :
    ∃ s, ofTokens? tokens = some s ∧ s.body = tokens.takeWhile (·.kind ≠ .eof) ∧
      s.stop.kind = .eof ∧ ∃ behind, tokens = s.body ++ s.stop :: behind :=
  ⟨⟨tokens, h⟩, dif_pos h, rfl, stop_kind _, _, tokens_eq ⟨tokens, h⟩⟩

theorem length_body_lt (s : TokenStream) : s.body.length < s.tokens.length := by
  rw [s.tokens_eq, List.length_append, List.length_cons]
  omega

theorem getElem?_tokens {k : Nat} (h : k < s.tokens.length) : s.tokens[k]? = some (s.tokenAt k) := by
  rw [List.getElem?_eq_getElem h, tokenAt_of_getElem? (List.getElem?_eq_getElem h)]

theorem tokenAt_body {k : Nat} {t : Token} (h : s.body[k]? = some t) : s.tokenAt k = t := by
  refine tokenAt_of_getElem? ?_
  rw [s.tokens_eq, List.getElem?_append_left (List.getElem?_eq_some_iff.mp h).1, h]

theorem body_ofScan {scan : Scan} (h : ∀ t ∈ scan.body, t.kind ≠ .eof) :
    (ofScan scan).body = scan.body := by
  have hall : ∀ t ∈ scan.body, decide (t.kind ≠ .eof) = true :=
    fun t ht => decide_eq_true (h t ht)
  show (scan.body ++ [scan.stop]).takeWhile _ = scan.body
  have hstop : [scan.stop].takeWhile (·.kind ≠ .eof) = [] := rfl
  rw [List.takeWhile_append_of_pos hall, hstop, List.append_nil]

end TokenStream

namespace Parser

/-! ### What is ahead of a parser -/

/-- The tokens from the position of a parser up to the next end of input. -/
def rest (p : Parser) : List Token :=
  (p.stream.tokens.drop p.position).takeWhile (·.kind ≠ .eof)

def advance (p : Parser) (count : Nat) : Parser :=
  { p with position := p.position + count }

theorem position_advance (p : Parser) (count : Nat) :
    (p.advance count).position = p.position + count := rfl

theorem advance_advance (p : Parser) (m n : Nat) : (p.advance m).advance n = p.advance (m + n) := by
  rw [advance, advance, advance, Nat.add_assoc]

variable {p : Parser}

theorem atEnd_iff : p.atEnd = true ↔ p.current.kind = .eof :=
  decide_eq_true_iff

theorem next_of_atEnd (h : p.atEnd = true) : p.next = p :=
  if_pos h

theorem next_of_not_atEnd (h : ¬ p.atEnd = true) : p.next = p.advance 1 :=
  if_neg h

/-- **The token that has been taken is the previous one**, whatever stands in for it before the
first token. -/
theorem previous_next (h : ¬ p.atEnd = true) : p.next.previous = p.current := by
  rw [next_of_not_atEnd h]
  rfl

theorem rest_of_atEnd (h : p.atEnd = true) : p.rest = [] := by
  rw [rest]
  by_cases hinside : p.position < p.stream.tokens.length
  · have hcurrent : p.stream.tokens[p.position] = p.current :=
      (TokenStream.tokenAt_of_getElem? (List.getElem?_eq_getElem hinside)).symm
    rw [List.drop_eq_getElem_cons hinside, hcurrent]
    exact List.takeWhile_cons_of_neg (by simpa using atEnd_iff.mp h)
  · rw [List.drop_eq_nil_of_le (Nat.le_of_not_lt hinside)]
    rfl

theorem position_lt_of_not_atEnd (h : ¬ p.atEnd = true) : p.position < p.stream.tokens.length := by
  have hahead := ahead_next_lt h
  rw [ahead, ahead] at hahead
  omega

theorem rest_of_not_atEnd (h : ¬ p.atEnd = true) : p.rest = p.current :: p.next.rest := by
  have hinside := position_lt_of_not_atEnd h
  have hcurrent : p.stream.tokens[p.position] = p.current :=
    (TokenStream.tokenAt_of_getElem? (List.getElem?_eq_getElem hinside)).symm
  have hkind : p.current.kind ≠ .eof := fun hkind => h (atEnd_iff.mpr hkind)
  rw [rest, List.drop_eq_getElem_cons hinside, hcurrent,
    List.takeWhile_cons_of_pos (by simpa using hkind), next_of_not_atEnd h]
  rfl

/-! ### Reading a list -/

structure Reading where
  result : Except (Halt SyntaxError.Cause) Expr
  /-- The number of tokens that were read. -/
  count : Nat
  /-- The error of which the report was broken off. -/
  brokenOff : Option SyntaxError.Cause

/-- What reading gives when it stops in a phase, with a tree or with an error to report. -/
def stopAt (a : Allowance Opening) (phase : Phase) : Except SyntaxError.Cause Expr → Reading
  | .ok tree => ⟨.ok tree, 0, none⟩
  | .error cause =>
    if a.covers (phase.reportDepth a.cost cause) then ⟨.error (.raised cause), 0, none⟩
    else ⟨.error .exhausted, 0, some cause⟩

def read (a : Allowance Opening) (phase : Phase) : List Token → Reading
  | [] => stopAt a phase phase.finish
  | t :: ts =>
    match phase.step t with
    | .error cause => stopAt a phase (.error cause)
    | .ok next =>
      if a.covers (depth a.cost next.stack) then
        let after := read a next ts
        { after with count := after.count + 1 }
      else ⟨.error .exhausted, 1, none⟩

def Reading.entries (reading : Reading) (t : Token) : List Entry :=
  match reading.result with
  | .ok _ => []
  | .error (.raised cause) => [.report (.ofSyntax ⟨cause, t⟩)]
  | .error .exhausted => reading.brokenOff.toList.map fun cause => .count (.ofSyntax ⟨cause, t⟩)

section Walks

variable {σ : Type} [Sink σ]

def Reading.walked (reading : Reading) (p : Parser) (r : Reporter σ) : Walked σ where
  result := reading.result
  parser := p.advance reading.count
  reporter := r.enterAll (reading.entries (p.advance reading.count).current)

theorem refuse_eq (a : Allowance Opening) (phase : Phase) (cause : SyntaxError.Cause) (p : Parser)
    (r : Reporter σ) : p.refuse a phase cause r = (stopAt a phase (.error cause)).walked p r := by
  rw [refuse, stopAt]
  split <;> rfl

theorem Reading.walked_next (h : ¬ p.atEnd = true) (reading : Reading) (r : Reporter σ) :
    reading.walked p.next r = { reading with count := reading.count + 1 }.walked p r := by
  have hafter : p.next.advance reading.count = p.advance (reading.count + 1) := by
    rw [next_of_not_atEnd h, advance_advance, Nat.add_comm]
  rw [walked, walked, hafter]
  rfl

/-- **A walk reads what is ahead.** -/
theorem walk_eq (a : Allowance Opening) (phase : Phase) (p : Parser) (r : Reporter σ) :
    p.walk a phase r = (read a phase p.rest).walked p r := by
  fun_induction walk a phase p r with
  | case1 phase p hend tree hfinish =>
    rw [rest_of_atEnd hend, read, hfinish]
    rfl
  | case2 phase p hend cause hfinish =>
    rw [rest_of_atEnd hend, read, hfinish]
    exact refuse_eq a phase cause p r
  | case3 phase p hend cause hconsume =>
    rw [previous_next hend] at hconsume
    rw [rest_of_not_atEnd hend, read, Phase.step, hconsume]
    exact refuse_eq a phase cause p r
  | case4 phase p hend after hconsume hcovers ih =>
    rw [previous_next hend] at hconsume
    rw [rest_of_not_atEnd hend, read, Phase.step, hconsume, ih, Reading.walked_next hend]
    simp only [if_pos hcovers]
  | case5 phase p hend after hconsume hcovers =>
    rw [previous_next hend] at hconsume
    rw [rest_of_not_atEnd hend, read, Phase.step, hconsume, next_of_not_atEnd hend]
    simp only [if_neg hcovers]
    rfl

end Walks

/-! ### Parses -/

theorem parse_eq (a : Allowance Opening) (p : Parser) : p.parse a =
    ((read a .initial p.rest).result.mapError
        (SyntaxError.ofHalt (p.advance (read a .initial p.rest).count).current),
      p.advance (read a .initial p.rest).count) := by
  rw [parse, walk_eq]
  rfl

def entries (a : Allowance Opening) (p : Parser) : List Entry :=
  let reading := read a .initial p.rest
  let token := (p.advance reading.count).current
  reading.entries token ++
    match reading.result with
    | .ok _ => [.note (.parsed p.stream.tokens.length)]
    | .error (.raised _) => [.note .abandoned]
    | .error .exhausted => [.report (.ofSyntax ⟨.tooDeep, token⟩)]

def error? (a : Allowance Opening) (p : Parser) : Option SyntaxError :=
  match (p.parse a).1 with
  | .ok _ => none
  | .error e => some e

theorem error?_eq_none_iff {a : Allowance Opening} {p : Parser} :
    p.error? a = none ↔ ∃ tree, (p.parse a).1 = .ok tree := by
  rw [error?]
  cases (p.parse a).1 with
  | ok tree => simp
  | error e => simp

/-- **A parse says at most one thing**, its error. -/
theorem diagnostics_entries (a : Allowance Opening) (p : Parser) :
    diagnostics (p.entries a) = (p.error? a).toList.map .ofSyntax := by
  rw [entries, error?, parse_eq, Reading.entries, diagnostics_append]
  cases (read a .initial p.rest).result with
  | ok tree => rfl
  | error halt =>
    cases halt with
    | raised cause => rfl
    | exhausted => cases (read a .initial p.rest).brokenOff <;> rfl

/-- A report is broken off only in a parse that says something else. -/
theorem exists_error?_of_count {a : Allowance Opening} {p : Parser} {d : Diagnostic}
    (h : .count d ∈ p.entries a) : (∃ e, d = .ofSyntax e) ∧ ∃ e, p.error? a = some e := by
  rw [entries, Reading.entries] at h
  rw [error?, parse_eq]
  cases hresult : (read a .initial p.rest).result with
  | ok tree =>
    rw [hresult] at h
    simp at h
  | error halt =>
    rw [hresult] at h
    cases halt with
    | raised cause => simp at h
    | exhausted =>
      refine ⟨?_, _, rfl⟩
      rcases List.mem_append.mp h with hcount | hreport
      · obtain ⟨cause, -, hd⟩ := List.mem_map.mp hcount
        exact ⟨_, (Entry.count.inj hd).symm⟩
      · cases List.mem_singleton.mp hreport

theorem isRuntime_of_mem_counted {a : Allowance Opening} {p : Parser} {d : Diagnostic}
    (h : d ∈ counted (p.entries a)) : d.isRuntime = false := by
  rcases mem_counted.mp h with hsaid | hbroken
  · rw [diagnostics_entries] at hsaid
    obtain ⟨e, -, rfl⟩ := List.mem_map.mp hsaid
    rfl
  · obtain ⟨⟨e, rfl⟩, -⟩ := exists_error?_of_count hbroken
    rfl

/-- **A parse counts an error** exactly if it gives no tree. -/
theorem errors_entries_pos_iff {a : Allowance Opening} {p : Parser} :
    0 < Entry.errors (p.entries a) ↔ ∃ e, p.error? a = some e := by
  rw [errors_pos]
  constructor
  · rintro ⟨d, hd, -⟩
    rcases mem_counted.mp hd with hsaid | hbroken
    · rw [diagnostics_entries] at hsaid
      obtain ⟨e, he, -⟩ := List.mem_map.mp hsaid
      exact ⟨e, Option.mem_toList.mp he⟩
    · exact (exists_error?_of_count hbroken).2
  · rintro ⟨e, he⟩
    refine ⟨.ofSyntax e, mem_counted.mpr (Or.inl ?_), rfl⟩
    rw [diagnostics_entries, he]
    exact List.mem_singleton_self _

theorem parseReporting_eq {σ : Type} [Sink σ] (a : Allowance Opening) (p : Parser)
    (r : Reporter σ) :
    p.parseReporting a r = ((p.parse a).1.toOption, (p.parse a).2, r.enterAll (p.entries a)) := by
  rw [parseReporting, entries, parse_eq, walk_eq, Reporter.enterAll_append]
  dsimp only [Reading.walked]
  cases (read a .initial p.rest).result with
  | ok tree => rfl
  | error halt => cases halt <;> rfl

end Parser

end LoxCalc
