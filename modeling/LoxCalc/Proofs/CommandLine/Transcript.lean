import LoxCalc.CommandLine.Console
import LoxCalc.Proofs.Reporter.Entries

/-!
# What is written on the console

A run writes on two streams, and it writes on each without regard to the other.  Its entries
leave a `transcript` on standard error; its results are put on standard output.  **The two can
be told apart**: a run does to a reporter what its entries do and what its results do, in
whichever order (`Reporter.enterAll_put`).
-/

namespace LoxCalc

open CommandLine

/-! ### Styling -/

namespace Text

theorem unstyledFrom_append {before : List Char} (h : escapeCharacter ∉ before)
    (rest : List Char) : unstyledFrom [] (before ++ rest) = before ++ unstyledFrom [] rest := by
  induction before with
  | nil => rfl
  | cons c before ih =>
    have hc : c ≠ escapeCharacter := fun heq => h (heq ▸ List.mem_cons_self)
    have hbefore : escapeCharacter ∉ before := fun hmem => h (List.mem_cons_of_mem c hmem)
    rw [List.cons_append, unstyledFrom, if_neg hc, ih hbefore, List.cons_append]

theorem unstyled_of_notMem {text : String} (h : escapeCharacter ∉ text.toList) :
    unstyled text = text := by
  have happend := unstyledFrom_append h []
  rw [List.append_nil, unstyledFrom, List.reverse_nil, List.append_nil] at happend
  rw [unstyled, happend, String.ofList_toList]

theorem isAlpha_of_stylingParameter {c : Char} (h : isStylingParameter c = true) :
    c.isAlpha = false := by
  simp only [isStylingParameter, Bool.or_eq_true, beq_iff_eq] at h
  rcases h with (h | rfl) | rfl
  · rw [Bool.eq_false_iff]
    intro halpha
    have hdigit : c.toNat ≤ 57 := by
      simp only [Char.isDigit, Bool.and_eq_true, decide_eq_true_eq] at h
      exact h.2
    have hletter : 65 ≤ c.toNat := by
      rcases Bool.or_eq_true_iff.mp halpha with hupper | hlower
      · exact (of_decide_eq_true hupper).1
      · have hle : 97 ≤ c.toNat := of_decide_eq_true (Bool.and_eq_true_iff.mp hlower).1
        omega
    omega
  · decide
  · decide

/-- A control sequence whose beginning is held is dropped. -/
theorem unstyledFrom_parameters {params : List Char} (hparams : ∀ c ∈ params,
    isStylingParameter c = true) {letter : Char} (hletter : letter.isAlpha = true)
    (rest : List Char) : ∀ (c d : Char) (held : List Char),
    unstyledFrom (c :: d :: held) (params ++ letter :: rest) = unstyledFrom [] rest := by
  induction params with
  | nil =>
    intro c d held
    rw [List.nil_append, unstyledFrom, if_pos hletter]
    · exact nofun
    · exact nofun
  | cons p params ih =>
    intro c d held
    obtain ⟨hp, hparams⟩ := List.forall_mem_cons.mp hparams
    rw [List.cons_append, unstyledFrom, isAlpha_of_stylingParameter hp,
      if_neg Bool.false_ne_true, if_pos hp]
    · exact ih hparams _ _ _
    · exact nofun
    · exact nofun

/-- **A control sequence is dropped.** -/
theorem unstyledFrom_sequence {params : List Char} (hparams : ∀ c ∈ params,
    isStylingParameter c = true) {letter : Char} (hletter : letter.isAlpha = true)
    (rest : List Char) :
    unstyledFrom [] (escapeCharacter :: '[' :: (params ++ letter :: rest)) =
      unstyledFrom [] rest := by
  rw [unstyledFrom, if_pos rfl, unstyledFrom, if_pos rfl]
  exact unstyledFrom_parameters hparams hletter rest _ _ _

/-- **A line with a control sequence in it** is written without the sequence. -/
theorem unstyled_sequence {before params : List Char} (hbefore : escapeCharacter ∉ before)
    (hparams : ∀ c ∈ params, isStylingParameter c = true) {letter : Char}
    (hletter : letter.isAlpha = true) (rest : List Char) :
    unstyled (String.ofList (before ++ escapeCharacter :: '[' :: (params ++ letter :: rest)) ++
        "\n") =
      String.ofList before ++ unstyled (String.ofList rest ++ "\n") := by
  have hnewline : ∀ text, (String.ofList text ++ "\n").toList = text ++ ['\n'] := fun text => by
    rw [String.toList_append, String.toList_ofList]
    rfl
  rw [unstyled, unstyled, hnewline, hnewline, List.append_assoc, unstyledFrom_append hbefore,
    List.cons_append, List.cons_append, List.append_assoc, List.cons_append,
    unstyledFrom_sequence hparams hletter, String.ofList_append]

end Text

namespace Entry

def traceText (traces : Bool) (t : Trace) : String :=
  if traces then t.text ++ "\n" else ""

/-- What an entry leaves on standard error. -/
def said (traces : Bool) : Entry → String
  | .report d => traceText traces (.reported d) ++ (d.text ++ "\n")
  | .count _ => ""
  | .note t => traceText traces t

def transcript (traces : Bool) (es : List Entry) : String :=
  String.join (es.map (said traces))

variable {traces : Bool}

@[simp] theorem transcript_nil : transcript traces [] = "" := rfl

@[simp] theorem transcript_cons (e : Entry) (es : List Entry) :
    transcript traces (e :: es) = e.said traces ++ transcript traces es := by
  rw [transcript, List.map_cons, String.join_cons]
  rfl

@[simp] theorem transcript_append (es es' : List Entry) :
    transcript traces (es ++ es') = transcript traces es ++ transcript traces es' := by
  rw [transcript, List.map_append, String.join_append]
  rfl

theorem transcript_flatMap {α : Type} (f : α → List Entry) (as : List α) :
    transcript traces (as.flatMap f) = String.join (as.map fun a => transcript traces (f a)) := by
  induction as with
  | nil => rfl
  | cons a as ih =>
    rw [List.flatMap_cons, transcript_append, ih, List.map_cons, String.join_cons]

theorem transcript_of_untraced (es : List Entry) :
    transcript false es = String.join ((diagnostics es).map fun d => d.text ++ "\n") := by
  induction es with
  | nil => rfl
  | cons e es ih =>
    rw [transcript_cons, ih]
    cases e with
    | note t | count d => exact String.empty_append
    | report d =>
      have hdiagnostics : diagnostics (.report d :: es) = d :: diagnostics es := rfl
      rw [hdiagnostics, List.map_cons, String.join_cons]
      exact congrArg (· ++ _) String.empty_append

end Entry

open Entry

namespace Reporter

def put (r : Reporter Console) (text : String) : Reporter Console :=
  { r with sink := { r.sink with out := r.sink.out ++ text } }

variable {r : Reporter Console}

theorem write_eq_put (text : String) : r.write text = r.put (Text.unstyled text) := rfl

theorem writeLine_eq_put (text : String) :
    r.writeLine text = r.put (Text.unstyled (text ++ "\n")) := rfl

@[simp] theorem put_empty : r.put "" = r := by
  rw [put, String.append_empty]

@[simp] theorem put_put (text text' : String) :
    (r.put text).put text' = r.put (text ++ text') := by
  simp only [put, String.append_assoc]

theorem foldl_writeLine (texts : List String) : ∀ r : Reporter Console,
    texts.foldl writeLine r =
      r.put (String.join (texts.map fun text => Text.unstyled (text ++ "\n"))) := by
  induction texts with
  | nil => exact fun r => put_empty.symm
  | cons text texts ih =>
    intro r
    rw [List.foldl_cons, ih, writeLine_eq_put, put_put, List.map_cons, String.join_cons]

theorem note_sink (t : Trace) : (r.note t).sink =
    { r.sink with err := r.sink.err ++ traceText r.sink.traces t } := by
  obtain ⟨⟨out, err, traces⟩, -⟩ := r
  cases traces with
  | true => simp [note, Sink.note, traceText, String.append_assoc]
  | false => simp [note, Sink.note, traceText]

theorem count_sink (d : Diagnostic) : (r.count d).sink =
    { r.sink with err := r.sink.err ++ said r.sink.traces (.count d) } := by
  rw [said, String.append_empty]
  cases d <;> rfl

theorem report_sink (d : Diagnostic) : (r.report d).sink =
    { r.sink with err := r.sink.err ++ said r.sink.traces (.report d) } := by
  have hcounted : (r.count d).sink = r.sink := by cases d <;> rfl
  show Sink.say ((r.count d).note (.reported d)).sink d.text = _
  rw [note_sink, hcounted]
  simp [Sink.say, said, String.append_assoc]

/-- **What entries leave on the console.** -/
theorem enterAll_sink (es : List Entry) : ∀ r : Reporter Console, (r.enterAll es).sink =
    { r.sink with err := r.sink.err ++ transcript r.sink.traces es } := by
  induction es with
  | nil =>
    intro r
    rw [transcript_nil, String.append_empty]
    rfl
  | cons e es ih =>
    intro r
    have hentered : (r.enter e).sink =
        { r.sink with err := r.sink.err ++ e.said r.sink.traces } := by
      cases e with
      | note t => exact note_sink t
      | report d => exact report_sink d
      | count d => exact count_sink d
    show ((r.enter e).enterAll es).sink = _
    rw [ih, hentered, transcript_cons, String.append_assoc]

/-- **Entries and results do not meet**: they can be made in either order. -/
theorem enterAll_put (es : List Entry) (text : String) : ∀ r : Reporter Console,
    (r.put text).enterAll es = (r.enterAll es).put text := by
  induction es with
  | nil => exact fun r => rfl
  | cons e es ih =>
    intro r
    have henter : (r.put text).enter e = (r.enter e).put text := by
      obtain ⟨⟨out, err, traces⟩, -⟩ := r
      cases e with
      | note t => cases traces <;> rfl
      | report d => cases traces <;> cases d <;> rfl
      | count d => cases d <;> rfl
    show ((r.put text).enter e).enterAll es = ((r.enter e).enterAll es).put text
    rw [henter, ih]

end Reporter

end LoxCalc
