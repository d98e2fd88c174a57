import LoxCalc.CommandLine.Run
import LoxCalc.Proofs.CommandLine.Transcript
import LoxCalc.Proofs.Script.Requests
import LoxCalc.Proofs.Text.Encoding

/-!
# Runs of the program

A file is run on a fresh reporter and a prompt runs its lines on one.  **Each line is run as
if it were a file of its own**: what a run writes and reports does not depend on what the
reporter has been given before (`exists_run`), and the bytes of a line are read as the line
(`runScript_encode`).  So the output of a prompt is put together from those of the files that
hold its lines, and what it reports is what they report.

The status of a file says in which of the three ways its source has gone.  What is written of
a text is not the text if there are control sequences in it: none of them comes through.

* `exists_run`: a run, with any reporter.
* `runFile_eq`, `runFile_answered`: a file.
* `runPrompt_eq`: a prompt.
* `runs_isolated`: both.
-/

namespace LoxCalc.CommandLine

open Entry

/-! ### One run -/

section Run

variable (limits : Limits) (config : Config)

def shownText : Option String → String
  | some text => Text.unstyled (text ++ "\n")
  | none => ""

theorem writeAnswer_eq_put (r : Reporter Console) (text? : Option String) :
    writeAnswer r (.ok text?) = r.put (shownText text?) := by
  cases text? with
  | none => exact Reporter.put_empty.symm
  | some text => rfl

theorem exists_writeAnswer (answer : Except Fault (Option String)) :
    ∃ text, ∀ r : Reporter Console, writeAnswer r answer = r.put text := by
  cases answer with
  | ok text? => exact ⟨shownText text?, fun r => writeAnswer_eq_put r text?⟩
  | error f => exact ⟨"", fun r => Reporter.put_empty.symm⟩

theorem runScript_eq (printTree : Bool) (source : Source) (r : Reporter Console) :
    runScript limits config ⟨printTree, false⟩ source r =
      writeAnswer ((Script.ofSource source config.places).request limits printTree r).reporter
        ((Script.ofSource source config.places).request limits printTree r).answer := by
  cases printTree <;> rfl

theorem runScript_tokens_eq (printTree : Bool) (source : Source) (r : Reporter Console) :
    runScript limits config ⟨printTree, true⟩ source r =
      let listed := listTokens (Script.ofSource source config.places) r
      writeAnswer (listed.1.request limits printTree listed.2).reporter
        (listed.1.request limits printTree listed.2).answer := by
  cases printTree <;> rfl

theorem exists_listTokens (s : Script) : ∃ (script : Script) (es : List Entry) (text : String),
    (∀ r : Reporter Console, listTokens s r = (script, (r.enterAll es).put text)) ∧
      MadeUp es := by
  obtain ⟨m, hm, -, hmade, -⟩ := s.exists_move_scan
  refine ⟨m.script, m.entries, String.join ((m.answer.tokens.map Token.listing).map fun line =>
    Text.unstyled (line ++ "\n")), fun r => ?_, hmade⟩
  rw [listTokens, hm]
  exact congrArg _ (Reporter.foldl_writeLine _ _)

/-- **A run** enters the same entries and writes the same text whatever has been before. -/
theorem exists_run (view : View) (source : Source) : ∃ (es : List Entry) (text : String),
    (∀ r : Reporter Console, runScript limits config view source r =
      (r.enterAll es).put text) ∧ MadeUp es := by
  obtain ⟨printTree, showTokens⟩ := view
  cases showTokens with
  | false =>
    obtain ⟨m, hm, hmade⟩ :=
      (Script.ofSource source config.places).exists_move_request limits printTree
    obtain ⟨text, htext⟩ := exists_writeAnswer m.answer
    refine ⟨m.entries, text, fun r => ?_, hmade⟩
    rw [runScript_eq, hm]
    exact htext _
  | true =>
    obtain ⟨script, es, listing, hlist, hmade⟩ :=
      exists_listTokens (Script.ofSource source config.places)
    obtain ⟨m, hm, hmade'⟩ := script.exists_move_request limits printTree
    obtain ⟨text, htext⟩ := exists_writeAnswer m.answer
    refine ⟨es ++ m.entries, listing ++ text, fun r => ?_, hmade.append hmade'⟩
    rw [runScript_tokens_eq, hlist]
    dsimp only
    rw [hm]
    show writeAnswer (((r.enterAll es).put listing).enterAll m.entries) m.answer = _
    rw [htext, Reporter.enterAll_put, Reporter.put_put, Reporter.enterAll_append]

theorem runScript_congr {source source' : Source} (h : source.characters = source'.characters)
    (view : View) (r : Reporter Console) :
    runScript limits config view source r = runScript limits config view source' r := by
  obtain ⟨printTree, showTokens⟩ := view
  have halike := Script.alike_ofSource h config.places
  cases showTokens with
  | false =>
    obtain ⟨hanswer, -, hreporter⟩ := halike.request limits printTree r
    rw [runScript_eq, runScript_eq, hanswer, hreporter]
  | true =>
    obtain ⟨hscan, hscript, hscanned⟩ := halike.scan r
    have hlisted : (listTokens (Script.ofSource source config.places) r).2 =
        (listTokens (Script.ofSource source' config.places) r).2 := by
      simp only [listTokens, hscan, hscanned]
    obtain ⟨hanswer, -, hreporter⟩ := Script.Alike.request limits hscript printTree
      (listTokens (Script.ofSource source config.places) r).2
    rw [runScript_tokens_eq, runScript_tokens_eq]
    dsimp only
    rw [← hlisted]
    show writeAnswer (((Script.ofSource source config.places).scan r).script.request limits
      printTree _).reporter _ = _
    rw [hreporter]
    exact congrArg _ hanswer

/-- **The bytes of a text are run as the text.** -/
theorem runScript_encode (view : View) (text : List Char) (r : Reporter Console) :
    runScript limits config view (.bytes (Text.Utf8.encode text)) r =
      runScript limits config view (.text (String.ofList text)) r := by
  refine runScript_congr limits config ?_ view r
  rw [Source.characters, Source.characters, Text.Utf8.decode_encode, String.toList_ofList]

end Run

/-! ### Files -/

def ExitStatus.ofDiagnostics (ds : List Diagnostic) : ExitStatus :=
  if ds.any (!·.isRuntime) then .dataError
  else if ds.any (·.isRuntime) then .software else .success

theorem ExitStatus.ofDiagnostics_code (ds : List Diagnostic) :
    ((ofDiagnostics ds).code = 65 ↔ ∃ d ∈ ds, d.isRuntime = false) ∧
      ((ofDiagnostics ds).code = 70 ↔ ds ≠ [] ∧ ∀ d ∈ ds, d.isRuntime = true) ∧
      ((ofDiagnostics ds).code = 0 ↔ ds = []) := by
  by_cases hsource : ∃ d ∈ ds, d.isRuntime = false
  · have hany : ds.any (!·.isRuntime) = true := by simpa using hsource
    have hstatus : ofDiagnostics ds = .dataError := by rw [ofDiagnostics, if_pos hany]
    obtain ⟨d, hd, hruntime⟩ := hsource
    rw [hstatus]
    refine ⟨iff_of_true rfl ⟨d, hd, hruntime⟩, iff_of_false (by decide) ?_,
      iff_of_false (by decide) (List.ne_nil_of_mem hd)⟩
    rintro ⟨-, hall⟩
    rw [hall d hd] at hruntime
    cases hruntime
  · have hany : ¬ ds.any (!·.isRuntime) = true := by simpa using hsource
    have hall : ∀ d ∈ ds, d.isRuntime = true := by simpa using hsource
    cases ds with
    | nil =>
      refine ⟨iff_of_false (by decide) hsource, iff_of_false (by decide) ?_, iff_of_true rfl rfl⟩
      rintro ⟨hne, -⟩
      exact hne rfl
    | cons d ds =>
      have hruntime : (d :: ds).any (·.isRuntime) = true := by simp [hall d List.mem_cons_self]
      have hstatus : ofDiagnostics (d :: ds) = .software := by
        rw [ofDiagnostics, if_neg hany, if_pos hruntime]
      rw [hstatus]
      exact ⟨iff_of_false (by decide) hsource, iff_of_true rfl ⟨List.cons_ne_nil _ _, hall⟩,
        iff_of_false (by decide) (List.cons_ne_nil _ _)⟩

section Files

variable (limits : Limits) (config : Config)

/-- The entries of a file: its running is noted first. -/
def fileEntries (path : Path) (es : List Entry) : List Entry :=
  .note (.running path.text) :: es

/-- **A file** shows what its run writes, and says what its run reports. -/
theorem runFile_eq {view : View} {bytes : List UInt8} {es : List Entry} {text : String}
    (h : ∀ r : Reporter Console,
      runScript limits config view (.bytes bytes) r = (r.enterAll es).put text)
    (hmade : MadeUp es) (path : Path) :
    runFile limits config view path (.ok bytes) =
      ⟨.ofDiagnostics (diagnostics es), text,
        transcript config.logLevel.showsTraces (fileEntries path es)⟩ := by
  obtain ⟨start, hstart⟩ : ∃ start, start = Reporter.onConsole config.logLevel := ⟨_, rfl⟩
  have hrun : runScript limits config view (.bytes bytes) (start.note (.running path.text)) =
      (start.enterAll (fileEntries path es)).put text := h _
  have hcounted : counted (fileEntries path es) = counted es := rfl
  have herror : (start.enterAll (fileEntries path es)).hadError =
      (diagnostics es).any (!·.isRuntime) := by
    rw [Reporter.hadError_enterAll, hstart, hcounted, hmade.any_source]
    exact Bool.false_or _
  have hruntime : (start.enterAll (fileEntries path es)).hadRuntimeError =
      (diagnostics es).any (·.isRuntime) := by
    rw [Reporter.hadRuntimeError_enterAll, hstart, hcounted, hmade.any_runtime]
    exact Bool.false_or _
  have hstatus : statusOf ((start.enterAll (fileEntries path es)).put text) =
      .ofDiagnostics (diagnostics es) := by
    rw [ExitStatus.ofDiagnostics, ← herror, ← hruntime]
    rfl
  have hsink := Reporter.enterAll_sink (fileEntries path es) start
  rw [runFile, ← hstart, hrun, hstatus, Ended.ofReporter, Reporter.put, hsink, hstart]
  simp only [Reporter.onConsole, Reporter.fresh, Console.blank, String.empty_append]

theorem exists_fileRun (view : View) (path : Path) (bytes : List UInt8) : ∃ es,
    (∀ r : Reporter Console, runScript limits config view (.bytes bytes) r =
      (r.enterAll es).put (runFile limits config view path (.ok bytes)).out) ∧
    (runFile limits config view path (.ok bytes)).err =
      transcript config.logLevel.showsTraces (fileEntries path es) := by
  obtain ⟨es, text, hrun, hmade⟩ := exists_run limits config view (.bytes bytes)
  rw [runFile_eq limits config hrun hmade path]
  exact ⟨es, hrun, rfl⟩

theorem runFile_answered {printTree : Bool} {bytes : List UInt8} {text? : Option String}
    {es : List Entry}
    (h : ∀ {σ : Type} [Sink σ] (r : Reporter σ), ∃ script,
      (Script.ofSource (.bytes bytes) config.places).request limits printTree r =
        ⟨.ok text?, script, r.enterAll es⟩) (hmade : MadeUp es) (path : Path) :
    runFile limits config ⟨printTree, false⟩ path (.ok bytes) =
      ⟨.ofDiagnostics (diagnostics es), shownText text?,
        transcript config.logLevel.showsTraces (fileEntries path es)⟩ := by
  refine runFile_eq limits config (fun r => ?_) hmade path
  obtain ⟨script, hrequest⟩ := h r
  rw [runScript_eq, hrequest]
  exact writeAnswer_eq_put _ text?

end Files

/-! ### Lines -/

/-- Whether texts are lines: each ends in its only newline, but the last may have none. -/
inductive AreLines : List (List Char) → Prop
  | nil : AreLines []
  | last {line : List Char} (hne : line ≠ []) (h : '\n' ∉ line) : AreLines [line]
  | cons {line : List Char} {more : List (List Char)} (h : '\n' ∉ line) (hmore : AreLines more) :
      AreLines ((line ++ ['\n']) :: more)

theorem flatten_lines (input : List Char) : (lines input).flatten = input := by
  induction input with
  | nil => rfl
  | cons c rest ih =>
    rw [lines]
    by_cases hc : c = '\n'
    · rw [if_pos hc, List.flatten_cons, ih, hc]
      rfl
    · rw [if_neg hc]
      cases hlines : lines rest with
      | nil =>
        rw [hlines] at ih
        rw [← ih]
        rfl
      | cons line more =>
        rw [hlines, List.flatten_cons] at ih
        show (c :: line) ++ more.flatten = c :: rest
        rw [List.cons_append, ih]

theorem areLines_lines (input : List Char) : AreLines (lines input) := by
  induction input with
  | nil => exact .nil
  | cons c rest ih =>
    rw [lines]
    by_cases hc : c = '\n'
    · rw [if_pos hc, hc]
      show AreLines (([] ++ ['\n']) :: lines rest)
      exact .cons List.not_mem_nil ih
    · rw [if_neg hc]
      cases hlines : lines rest with
      | nil => exact .last (List.cons_ne_nil _ _) (by simpa using Ne.symm hc)
      | cons line more =>
        rw [hlines] at ih
        cases ih with
        | last hne h => exact .last (List.cons_ne_nil _ _) (by simp [Ne.symm hc, h])
        | @cons line more h hmore =>
          have hline : '\n' ∉ c :: line := by simp [Ne.symm hc, h]
          exact .cons hline hmore

theorem lines_append_newline {line : List Char} (h : '\n' ∉ line) (rest : List Char) :
    lines (line ++ '\n' :: rest) = (line ++ ['\n']) :: lines rest := by
  induction line with
  | nil => exact if_pos rfl
  | cons c line ih =>
    have hc : c ≠ '\n' := fun heq => h (heq ▸ List.mem_cons_self)
    have hline : '\n' ∉ line := fun hmem => h (List.mem_cons_of_mem c hmem)
    rw [List.cons_append, lines, if_neg hc, ih hline]
    rfl

theorem lines_of_notMem {line : List Char} (hne : line ≠ []) (h : '\n' ∉ line) :
    lines line = [line] := by
  induction line with
  | nil => exact absurd rfl hne
  | cons c line ih =>
    have hc : c ≠ '\n' := fun heq => h (heq ▸ List.mem_cons_self)
    have hline : '\n' ∉ line := fun hmem => h (List.mem_cons_of_mem c hmem)
    rw [lines, if_neg hc]
    cases line with
    | nil => rfl
    | cons d line => rw [ih (List.cons_ne_nil _ _) hline]

/-- **Lines are the lines of the text that they make up.** -/
theorem AreLines.lines_flatten {ls : List (List Char)} (h : AreLines ls) :
    lines ls.flatten = ls := by
  induction h with
  | nil => rfl
  | last hne h => rw [List.flatten_singleton, lines_of_notMem hne h]
  | cons h _ ih =>
    rw [List.flatten_cons, List.append_assoc, List.singleton_append, lines_append_newline h, ih]

/-! ### Prompts -/

section Prompts

variable (limits : Limits) (config : Config)

def promptText : String :=
  Text.unstyled config.prompt

theorem foldl_askAndRun {view : View} {entries : List Char → List Entry}
    {text : List Char → String}
    (h : ∀ (line : List Char) (r : Reporter Console),
      runScript limits config view (.text (String.ofList line)) r =
        (r.enterAll (entries line)).put (text line)) (ls : List (List Char)) :
    ∀ r : Reporter Console, ls.foldl (askAndRun limits config view) r =
      (r.enterAll (ls.flatMap entries)).put
        (String.join (ls.map fun line => promptText config ++ text line)) := by
  induction ls with
  | nil => exact fun r => Reporter.put_empty.symm
  | cons line ls ih =>
    intro r
    have hline : askAndRun limits config view r line =
        (r.enterAll (entries line)).put (promptText config ++ text line) := by
      rw [askAndRun, h, ask, Reporter.write_eq_put, Reporter.enterAll_put, Reporter.put_put]
      rfl
    rw [List.foldl_cons, hline, ih, Reporter.enterAll_put, Reporter.put_put, List.flatMap_cons,
      Reporter.enterAll_append, List.map_cons, String.join_cons]

/-- A separator before each text and at the end also stands at the beginning and behind each
text. -/
theorem join_separated {α : Type} (separator : String) (f : α → String) (as : List α) :
    String.join (as.map fun a => separator ++ f a) ++ separator =
      separator ++ String.join (as.map fun a => f a ++ separator) := by
  induction as with
  | nil => simp
  | cons a as ih => simp only [List.map_cons, String.join_cons, String.append_assoc, ih]

/-- **A prompt** is put together from the runs of its lines. -/
theorem runPrompt_eq {view : View} {entries : List Char → List Entry} {text : List Char → String}
    (h : ∀ (line : List Char) (r : Reporter Console),
      runScript limits config view (.text (String.ofList line)) r =
        (r.enterAll (entries line)).put (text line)) (input : List Char) :
    runPrompt limits config view input =
      ⟨.success,
        promptText config ++
          String.join ((lines input).map fun line => text line ++ promptText config) ++ "\n",
        transcript config.logLevel.showsTraces ((lines input).flatMap entries)⟩ := by
  have hnewline : Text.unstyled ("" ++ "\n") = "\n" := by decide
  have hsink := Reporter.enterAll_sink ((lines input).flatMap entries)
    (Reporter.onConsole config.logLevel)
  rw [runPrompt, foldl_askAndRun limits config h, ask, Reporter.write_eq_put,
    Reporter.writeLine_eq_put, hnewline, Reporter.put_put, Reporter.put_put, Ended.ofReporter,
    Reporter.put, hsink]
  have hout : String.join ((lines input).map fun line => promptText config ++ text line) ++
      (Text.unstyled config.prompt ++ "\n") = promptText config ++
        String.join ((lines input).map fun line => text line ++ promptText config) ++ "\n" := by
    rw [← join_separated, String.append_assoc]
    rfl
  simp only [Reporter.onConsole, Reporter.fresh, Console.blank, String.empty_append, hout]

end Prompts

/-! ### Both -/

/-- What is seen of a file without its tokens, whose request answers with a text or none and
enters entries. -/
structure FileEnds (limits : Limits) (config : Config) (printTree : Bool) (path : Path)
    (scan : Scan) (text? : Option String) (es : List Entry) (ended : Ended) : Prop where
  err : ended.err = transcript config.logLevel.showsTraces (.note (.running path.text) :: es)
  untraced : config.logLevel.showsTraces = false →
    ended.err = String.join ((diagnostics es).map fun d => d.text ++ "\n")
  /-- The status is 65 if an error of the source has been reported, -/
  dataError : ended.status.code = 65 ↔ ∃ d ∈ diagnostics es, d.isRuntime = false
  refused : ended.status.code = 65 ↔ scan.Refused limits printTree
  /-- 70 if a runtime error has been reported and no error of the source, -/
  software : ended.status.code = 70 ↔ diagnostics es ≠ [] ∧ ∀ d ∈ diagnostics es, d.isRuntime = true
  fails : ended.status.code = 70 ↔ scan.Fails limits printTree
  /-- and 0 if nothing has. -/
  success : ended.status.code = 0 ↔ diagnostics es = []
  shows : ended.status.code = 0 ↔ ∃ text, scan.Shows limits config.places printTree text
  shown : ∀ text, scan.Shows limits config.places printTree text →
    text? = some text ∧ ended.out = Text.unstyled (text ++ "\n")
  plain : ∀ text, scan.Shows limits config.places printTree text →
    Text.escapeCharacter ∉ text.toList → ended.out = text ++ "\n"
  /-- A control sequence of a text is not written. -/
  styled : ∀ {before params : List Char} {letter : Char} {rest : List Char},
    Text.escapeCharacter ∉ before → (∀ c ∈ params, Text.isStylingParameter c = true) →
    letter.isAlpha = true → scan.Shows limits config.places printTree
      (String.ofList (before ++ Text.escapeCharacter :: '[' :: (params ++ letter :: rest))) →
    ended.out = String.ofList before ++ Text.unstyled (String.ofList rest ++ "\n")
  silent : ended.status.code ≠ 0 → text? = none ∧ ended.out = ""

/-- What is seen of a prompt: what is seen of the files that hold its lines. -/
structure PromptEnds (limits : Limits) (config : Config) (view : View) (path : Path)
    (file : List Char → Ended) (ls : List (List Char)) (ended : Ended) : Prop where
  status : ended.status.code = 0
  out : ended.out = promptText config ++
    String.join (ls.map fun line => (file line).out ++ promptText config) ++ "\n"
  /-- The entries of the files without their running, one after the other. -/
  err : ∃ entries : List Char → List Entry,
    (∀ line (r : Reporter Console),
      runScript limits config view (.bytes (Text.Utf8.encode line)) r =
        (r.enterAll (entries line)).put (file line).out) ∧
    (∀ line, (file line).err = transcript config.logLevel.showsTraces
      (.note (.running path.text) :: entries line)) ∧
    ended.err = transcript config.logLevel.showsTraces (ls.flatMap entries)
  untraced : config.logLevel.showsTraces = false →
    ended.err = String.join (ls.map fun line => (file line).err)

section Both

variable (limits : Limits) (config : Config)

theorem exists_fileEnds (printTree : Bool) (path : Path) (bytes : List UInt8) :
    ∃ text? es, (∀ {σ : Type} [Sink σ] (r : Reporter σ), ∃ script,
        (Script.ofSource (.bytes bytes) config.places).request limits printTree r =
          ⟨.ok text?, script, r.enterAll es⟩) ∧
      FileEnds limits config printTree path (.ofSource (.bytes bytes)) text? es
        (runFile limits config ⟨printTree, false⟩ path (.ok bytes)) := by
  obtain ⟨text?, es, hrequest, hanswered, hmade⟩ :=
    Script.exists_request limits printTree (.bytes bytes) config.places
  obtain ⟨hdata, hsoftware, hsuccess⟩ := ExitStatus.ofDiagnostics_code (diagnostics es)
  refine ⟨text?, es, hrequest, ?_⟩
  rw [runFile_answered limits config hrequest hmade path]
  constructor
  case err => rfl
  case untraced =>
    intro htraces
    rw [htraces]
    exact transcript_of_untraced (fileEntries path es)
  case dataError => exact hdata
  case refused => exact hdata.trans hanswered.refused_iff.symm
  case software => exact hsoftware
  case fails => exact hsoftware.trans hanswered.fails_iff.symm
  case success => exact hsuccess
  case shows =>
    rw [hsuccess, hanswered.eq_nil_iff]
    exact exists_congr fun text => (hanswered.shows_iff text).symm
  case shown =>
    intro text htext
    obtain rfl := (hanswered.shows_iff text).mp htext
    exact ⟨rfl, rfl⟩
  case plain =>
    intro text htext hplain
    obtain rfl := (hanswered.shows_iff text).mp htext
    refine Text.unstyled_of_notMem ?_
    rw [String.toList_append, List.mem_append]
    exact fun h => h.elim hplain (by decide)
  case styled =>
    intro before params letter rest hbefore hparams hletter htext
    obtain rfl := (hanswered.shows_iff _).mp htext
    exact Text.unstyled_sequence hbefore hparams hletter rest
  case silent =>
    intro hcode
    have hnone : text? = none := by
      rw [Option.eq_none_iff_forall_ne_some]
      exact fun text htext => hcode (hsuccess.mpr (hanswered.eq_nil_iff.mpr ⟨text, htext⟩))
    rw [hnone]
    exact ⟨rfl, rfl⟩

theorem promptEnds (view : View) (path : Path) (input : List Char) :
    PromptEnds limits config view path
      (fun line => runFile limits config view path (.ok (Text.Utf8.encode line))) (lines input)
      (runPrompt limits config view input) := by
  choose entries hrun herr using fun line : List Char =>
    exists_fileRun limits config view path (Text.Utf8.encode line)
  have hline : ∀ (line : List Char) (r : Reporter Console),
      runScript limits config view (.text (String.ofList line)) r =
        (r.enterAll (entries line)).put
          (runFile limits config view path (.ok (Text.Utf8.encode line))).out := fun line r =>
    (runScript_encode limits config view line r).symm.trans (hrun line r)
  rw [runPrompt_eq limits config hline]
  refine ⟨rfl, rfl, ⟨entries, hrun, herr, rfl⟩, fun htraces => ?_⟩
  rw [htraces, transcript_flatMap]
  refine congrArg String.join (List.map_congr_left fun line _ => ?_)
  -- the running of the file is a trace, which is not shown
  rw [herr, htraces]
  exact String.empty_append.symm

/-- **Each input is run on its own.**  A file without its tokens ends with 65 if its source is
refused, with 70 if its evaluation fails, and with 0 if a text is shown of it; the text, without
its control sequences, and a newline are all that is written then, and nothing otherwise.  What
has been reported is what the request reports to any reporter, and tells the three apart.

A prompt writes the prompt and for each line what the file with the bytes of the line writes,
with a prompt behind it, and a newline at the end.  It reports what these files report, one
after the other; standard error is the same as theirs, if traces are not shown.  It ends with 0
whatever the lines are. -/
theorem runs_isolated :
    (∀ printTree path bytes, ∃ text? es,
      (∀ {σ : Type} [Sink σ] (r : Reporter σ), ∃ script,
        (Script.ofSource (.bytes bytes) config.places).request limits printTree r =
          ⟨.ok text?, script, r.enterAll es⟩) ∧
      FileEnds limits config printTree path (.ofSource (.bytes bytes)) text? es
        (runFile limits config ⟨printTree, false⟩ path (.ok bytes))) ∧
    (∀ view path input, PromptEnds limits config view path
      (fun line => runFile limits config view path (.ok (Text.Utf8.encode line))) (lines input)
      (runPrompt limits config view input)) ∧
    (∀ input, AreLines (lines input) ∧ (lines input).flatten = input) ∧
    ∀ ls, AreLines ls → lines ls.flatten = ls := by
  refine ⟨exists_fileEnds limits config, promptEnds limits config, fun input => ?_,
    fun ls h => h.lines_flatten⟩
  exact ⟨areLines_lines input, flatten_lines input⟩

end Both

def styledString : List UInt8 :=
  Text.Utf8.encode "\"\x1b[31mred\"".toList

/-- A text that is shown of a file need not be what is written. -/
theorem runFile_styledString :
    ¬ ∀ text, (Scan.ofSource (.bytes styledString)).Shows .standard Config.standard.places false
        text →
      (runFile .standard .standard ⟨false, false⟩ (.ofText "a.lox") (.ok styledString)).out =
        text ++ "\n" := by
  intro h
  have hshows : (Scan.ofSource (.bytes styledString)).Shows .standard Config.standard.places false
      "\x1b[31mred" := by
    refine ⟨by decide +kernel, .literal (.string "\x1b[31mred"), by decide +kernel, ?_⟩
    exact ⟨.string "\x1b[31mred", rfl, rfl⟩
  have hout : (runFile .standard .standard ⟨false, false⟩ (.ofText "a.lox")
      (.ok styledString)).out = "red\n" := by
    decide +kernel
  have hwritten := h _ hshows
  rw [hout] at hwritten
  exact absurd hwritten (by decide)

end LoxCalc.CommandLine
