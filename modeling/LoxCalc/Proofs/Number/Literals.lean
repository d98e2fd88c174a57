import LoxCalc.Proofs.Number.Shortest
import LoxCalc.Proofs.Script.Blocking
import LoxCalc.Proofs.Token.Cutting

/-!
# Literals of numbers

A finite number is written as a literal by the digits of a shortest decimal, without an exponent,
with a sign in front if its sign is set.  The language has no negative literals: **the sign is an
operator, and the text of a negative number is two tokens**, which the evaluator puts together
again.  The sign survives in zeros too, since negation does not compute a difference.
-/

namespace LoxCalc

/-! ### Scans -/

theorem Segment.newlines_number {whole fraction : List Char}
    (hdigits : ∀ c ∈ whole ++ fraction, c.isDigit = true) :
    (Segment.number whole fraction).newlines = 0 := by
  have hnewline : ∀ ds : List Char, (∀ c ∈ ds, c.isDigit = true) → '\n' ∉ ds :=
    fun ds hds h => absurd (hds _ h) (by decide)
  have hwhole := hnewline whole fun c hc => hdigits c (List.mem_append_left _ hc)
  have hfraction := hnewline fraction fun c hc => hdigits c (List.mem_append_right _ hc)
  refine List.count_eq_zero.mpr fun hmem => ?_
  cases fraction with
  | nil => exact hwhole (by simpa [Segment.text] using hmem)
  | cons d more =>
    rcases List.mem_append.mp hmem with h | h
    · exact hwhole h
    · rcases List.mem_cons.mp h with h | h
      · exact absurd h (by decide)
      · exact hfraction h

theorem NumberText.ofSegments {x : Number} {text : List Char} (h : NumberText x text)
    (line : Nat) : Scan.ofSegments line (segments text) =
      ⟨[⟨.number, String.ofList text, .number x, line⟩], [], line⟩ := by
  obtain ⟨whole, fraction, rfl, hne, hdigits, rfl⟩ := h
  have hsegments : segments ((Segment.number whole fraction).text ++ []) = _ :=
    segments_number hne hdigits trivial trivial
  rw [List.append_nil, segments] at hsegments
  rw [hsegments, Scan.ofSegments, Segment.newlines_number hdigits]
  rfl

namespace Number

theorem ofSource_signed {x : Number} {text : List Char} (h : NumberText x text)
    (negative : Bool) : Scan.ofSource (.text (String.ofList (signed negative text))) =
      ⟨(if negative then [.operator .minus 1] else []) ++
        [⟨.number, String.ofList text, .number x, 1⟩], [], 1⟩ := by
  have hminus : ∀ ss, Scan.ofSegments 1 (.symbol .minus :: ss) =
      ⟨.operator .minus 1 :: (Scan.ofSegments 1 ss).body, (Scan.ofSegments 1 ss).errors,
        (Scan.ofSegments 1 ss).lastLine⟩ := fun _ => rfl
  show Scan.ofSegments 1 (segments (String.ofList (signed negative text)).toList) = _
  rw [String.toList_ofList]
  cases negative with
  | false => exact h.ofSegments 1
  | true =>
    show Scan.ofSegments 1 (segments ('-' :: text)) = _
    rw [segments_punctuation rfl, hminus, h.ofSegments 1]
    rfl

/-! ### Literals -/

theorem write_literal (negative : Bool) (rank : Fin rankBound) :
    write .literal (.finite negative rank) = signed negative (shortest rank).positional := by
  show signed negative ((shortest rank).positional ++ []) = _
  rw [List.append_nil]

/-- **Literals of numbers read back.**  The literal of a finite number is the positional notation
of a shortest decimal for its magnitude, with a sign in front if the number has one.  Its scan
reports nothing and gives the magnitude as a number token, after a minus sign if there is a sign;
and the tree of the text evaluates to the number itself. -/
theorem literalText_reads (negative : Bool) (rank : Fin rankBound) :
    ∃ (d : Decimal) (text : String), d.IsShortest rank ∧
      (Value.number (.finite negative rank)).literalText = .ok text ∧
      text.toList = signed negative d.positional ∧
      (Scan.ofSource (.text text)).errors = [] ∧
      (Scan.ofSource (.text text)).tokens =
        (if negative then [.operator .minus 1] else []) ++
          [⟨.number, String.ofList d.positional, .number (.finite false rank), 1⟩,
            .endOfInput 1] ∧
      ∃ tree, (Scan.ofSource (.text text)).tree? .standard = some tree ∧
        ∀ places, tree.evaluate Limits.standard.evaluating places =
          .ok (.number (.finite negative rank)) := by
  have hnumber : NumberText (.finite false rank) (shortest rank).positional := by
    have hwritten := numberText_write rank
    rwa [write_literal] at hwritten
  refine ⟨shortest rank, String.ofList (signed negative (shortest rank).positional),
    isShortest_shortest rank, ?_, String.toList_ofList, ?_⟩
  · rw [Value.literalText, write_literal]
  · rw [ofSource_signed hnumber]
    -- a literal, or a minus sign before one
    cases negative with
    | false =>
      refine ⟨rfl, rfl, .literal (.number (.finite false rank)), ?_, fun _ => rfl⟩
      rw [Scan.tree?_eq_read (by simp)]
      rfl
    | true =>
      refine ⟨rfl, rfl,
        .unary (.operator .minus 1) (.literal (.number (.finite false rank))), ?_, fun _ => rfl⟩
      rw [Scan.tree?_eq_read (by simp [Token.operator])]
      rfl

end Number

end LoxCalc
