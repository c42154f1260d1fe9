import ScopeScript.Proofs.Decoding

/-! The commands on one file. Each of them puts the passes over a source together in its own way,
but they agree on which sources are rejected and on what is said about them. -/
namespace ScopeScript.CommandLine

/-! Static errors. -/

/-- The lexical errors of a source as they are reported. -/
def lexicalReport (source : String) : List Diagnostic := (lexicalErrors source).map .lexical

/-- The names that are global before anything has been run. -/
def nativeNames : List String := [Native.clock.name]

/-- All that is wrong with a source before it is run: the errors of the scanner and behind them
those of the parser, or, if there are none, the errors in its scopes. -/
def staticErrors (source : String) : List Diagnostic :=
  let parsed := parseTokens (tokens source) 0
  match lexicalReport source ++ parsed.errors.map .parse with
  | [] => ((programFindings nativeNames parsed.statements).filterMap Finding.error?).map .scope
  | errors => errors

theorem staticErrors_of_lexical {source : String} (lexical : lexicalErrors source ≠ []) :
    staticErrors source =
      lexicalReport source ++ (parseTokens (tokens source) 0).errors.map .parse := by
  obtain ⟨first, rest, same⟩ := List.exists_cons_of_ne_nil lexical
  simp only [staticErrors, lexicalReport, same]
  rfl

/-- The static checks of a source that is the first one of a session. -/
def checkFirst (source : String) : Except (List Diagnostic) Checked :=
  (checkSource nativeNames 0 source).1

/-- The checks stop at the first pass that fails, with all of its errors. -/
theorem checkFirst_cases (source : String) :
    (staticErrors source = [] ∧ ∃ checked, checkFirst source = .ok checked) ∨
      (staticErrors source ≠ [] ∧ checkFirst source = .error (staticErrors source)) := by
  unfold checkFirst checkSource parseSource staticErrors
  rw [← lexicalReport]
  dsimp only
  cases lexicalReport source ++ (parseTokens (tokens source) 0).errors.map .parse with
  | cons first rest => exact .inr ⟨List.cons_ne_nil _ _, rfl⟩
  | nil =>
    simp only [List.isEmpty_nil, if_true, ScopeScript.resolve]
    cases (programFindings nativeNames (parseTokens (tokens source) 0).statements).filterMap
        Finding.error? with
    | nil => exact .inl ⟨rfl, _, rfl⟩
    | cons first rest => exact .inr ⟨List.cons_ne_nil _ _, rfl⟩

/-! Resolving and running in a new session. -/

theorem globalNames_start (sink : Sink) (clock : Clock) :
    (Machine.start sink clock).globalNames = nativeNames :=
  List.mergeSort_singleton Native.clock.name

theorem check_start (clock : Clock) (source : String) :
    (Session.start {} clock).check source =
      (checkFirst source, { Session.start {} clock with
        nextId := (checkSource nativeNames 0 source).2 }) := by
  simp only [Session.check, Session.start, globalNames_start, checkFirst]

/-- Resolving parses first and then looks at the scopes, as the checks before a run do. -/
theorem resolve_eq (limits : Limits) (source : String) :
    resolve limits source = match checkFirst source with
      | .error errors => rejected errors
      | .ok checked => { stdout := distancesText (Distances.note {} checked.entries) } := by
  simp only [resolve, Session.parse, Session.start, checkFirst, checkSource]
  cases parseSource 0 source with
  | mk result next =>
    cases result with
    | error errors => rfl
    | ok program =>
      simp only [globalNames_start]
      cases ScopeScript.resolve nativeNames program <;> rfl

theorem sinkText_empty : sinkText {} = "" := by
  decide +kernel

theorem run_of_error {source : String} {errors : List Diagnostic}
    (failed : checkFirst source = .error errors) (limits : Limits) :
    run limits source = rejected errors := by
  have silent : sinkText (Session.start {} limits.clock).machine.sink = "" := sinkText_empty
  simp only [run, Session.run, check_start, failed, silent]
  rfl

theorem exitCode_ofStop (stop : Stop) : (Outcome.ofStop stop).exitCode ≠ 65 := by
  cases stop <;> simp [Outcome.ofStop, Outcome.exitCode, Diagnostic.exitCode]

/-- A run that has begun does not end with the code of a rejection. -/
theorem run_of_ok {source : String} {checked : Checked}
    (passed : checkFirst source = .ok checked) (limits : Limits) :
    (run limits source).code ≠ 65 := by
  simp only [run, Session.run, check_start, passed]
  split
  · exact Nat.zero_ne_add_one 64
  · exact exitCode_ofStop _

/-- A source with static errors gets the same answer from both commands. -/
theorem resolve_run_rejected {source : String} (invalid : staticErrors source ≠ [])
    (limits limits' : Limits) :
    resolve limits source = rejected (staticErrors source) ∧
      run limits' source = rejected (staticErrors source) := by
  rcases checkFirst_cases source with ⟨valid, -⟩ | ⟨-, failed⟩
  · contradiction
  · rw [resolve_eq, failed]
    exact ⟨rfl, run_of_error failed limits'⟩

theorem resolve_run_accepted {source : String} (valid : staticErrors source = [])
    (limits limits' : Limits) :
    (resolve limits source).code = 0 ∧ (run limits' source).code ≠ 65 := by
  rcases checkFirst_cases source with ⟨-, checked, passed⟩ | ⟨invalid, -⟩
  · rw [resolve_eq, passed]
    exact ⟨rfl, run_of_ok passed limits'⟩
  · contradiction

/-! Lexical errors are reported first. -/

theorem report_append (first second : List Diagnostic) :
    report (first ++ second) = report first ++ report second := by
  simp only [report, lines, List.map_append, String.join_append]

/-- A rejection that tells the lexical errors of a source first. -/
structure Rejects (source : String) (response : Response) : Prop where
  code : response.code = 65
  begins : ∃ more, response.stderr = report (lexicalReport source) ++ more

theorem rejects_append (source : String) (more : List Diagnostic) :
    Rejects source (rejected (lexicalReport source ++ more)) :=
  ⟨rfl, report more, report_append _ _⟩

section Lexical
variable {source : String}

theorem tokenize_rejects (lexical : lexicalErrors source ≠ []) :
    Rejects source (tokenize source) := by
  constructor
  · have some : (lexicalErrors source).isEmpty = false := by simpa using lexical
    simp only [tokenize, some]
    rfl
  · exact ⟨"", String.append_empty.symm⟩

theorem parse_rejects (lexical : lexicalErrors source ≠ []) : Rejects source (parse source) := by
  have some : lexicalReport source ≠ [] := by simpa [lexicalReport] using lexical
  have whole := rejects_append source []
  rw [List.append_nil] at whole
  unfold parse
  rw [← lexicalReport]
  cases parseExpression (tokens source) 0 with
  | ok e =>
    obtain ⟨first, rest, same⟩ := List.exists_cons_of_ne_nil some
    rw [same] at whole ⊢
    exact whole
  | error e => exact rejects_append source [.parse e]

/-- A source with a lexical error is rejected by every command. -/
theorem onSource_rejects (lexical : lexicalErrors source ≠ []) (limits : Limits)
    (command : Command) : Rejects source (onSource limits command source) := by
  have errors := staticErrors_of_lexical lexical
  have rejects := rejects_append source ((parseTokens (tokens source) 0).errors.map .parse)
  have invalid : staticErrors source ≠ [] := by
    rw [errors]
    simp [lexicalReport, lexical]
  obtain ⟨resolved, ran⟩ := resolve_run_rejected invalid limits limits
  cases command with
  | tokenize => exact tokenize_rejects lexical
  | parse => exact parse_rejects lexical
  | resolve =>
    rw [onSource, resolved, errors]
    exact rejects
  | run =>
    rw [onSource, ran, errors]
    exact rejects

end Lexical

theorem onFile_encoded (limits : Limits) (command : Command) (path source : String) :
    onFile limits command path (.contents (Utf8.encoded source)) =
      onSource limits command source := by
  rw [onFile, Utf8.decode_eq_ok.mpr rfl]

/-- The commands agree on static validity. Whatever text is in a file and whatever the commands are
given to run it, resolving rejects it if and only if running does, namely if it has static errors.
Both report just these and print nothing; otherwise resolving succeeds. Tokenizing rejects the
sources with a lexical error. All commands reject those, and their reports begin with that of
tokenizing. -/
theorem commands_agree (limits : Command → Limits) (path source : String) :
    let answer command := onFile (limits command) command path (.contents (Utf8.encoded source))
    ((answer .resolve).code = 65 ↔ (answer .run).code = 65) ∧
    ((answer .run).code = 65 ↔ staticErrors source ≠ []) ∧
    ((answer .run).code = 65 → (answer .run).stderr = report (staticErrors source) ∧
      (answer .resolve).stderr = (answer .run).stderr ∧
      (answer .resolve).stdout = "" ∧ (answer .run).stdout = "") ∧
    ((answer .run).code ≠ 65 → (answer .resolve).code = 0) ∧
    ((answer .tokenize).code = 65 ↔ lexicalErrors source ≠ []) ∧
    (lexicalErrors source ≠ [] → ∀ command, (answer command).code = 65 ∧
      ∃ more, (answer command).stderr = (answer .tokenize).stderr ++ more) := by
  intro answer
  have answers (command : Command) : answer command = onSource (limits command) command source :=
    onFile_encoded _ _ _ _
  have resolves : answer .resolve = resolve (limits .resolve) source := answers .resolve
  have runs : answer .run = run (limits .run) source := answers .run
  have tokenizes : answer .tokenize = tokenize source := answers .tokenize
  have tokenized : (answer .tokenize).code = 65 ↔ lexicalErrors source ≠ [] := by
    rw [tokenizes]
    refine ⟨fun code lexical => ?_, fun lexical => (tokenize_rejects lexical).code⟩
    rw [tokenize, lexical] at code
    contradiction
  have rejected (lexical : lexicalErrors source ≠ []) (command : Command) :
      (answer command).code = 65 ∧
        ∃ more, (answer command).stderr = (answer .tokenize).stderr ++ more := by
    rw [answers, tokenizes]
    obtain ⟨code, begins⟩ := onSource_rejects lexical (limits command) command
    exact ⟨code, begins⟩
  by_cases valid : staticErrors source = []
  · obtain ⟨resolved, ran⟩ := resolve_run_accepted valid (limits .resolve) (limits .run)
    rw [← runs] at ran
    rw [← resolves] at resolved
    refine ⟨?_, ?_, fun code => absurd code ran, fun _ => resolved, tokenized, rejected⟩
    · rw [resolved]
      exact ⟨nofun, fun code => absurd code ran⟩
    · exact ⟨fun code => absurd code ran, fun invalid => absurd valid invalid⟩
  · obtain ⟨resolved, ran⟩ := resolve_run_rejected valid (limits .resolve) (limits .run)
    rw [resolves, runs, resolved, ran]
    exact ⟨.rfl, ⟨fun _ => valid, fun _ => rfl⟩, fun _ => ⟨rfl, rfl, rfl, rfl⟩,
      fun other => absurd rfl other, tokenized, rejected⟩

/-- A character that begins nothing, and behind it a statement that breaks off. -/
theorem unexpected_character_rejected :
    let limits : Limits := ⟨9, ⟨fun _ => 0, 0⟩⟩
    let answer command := onFile limits command "file" (.contents (Utf8.encoded "@ print"))
    lexicalErrors "@ print" ≠ [] ∧
      (answer .tokenize).stderr = "[line 1] Error: Unexpected character: @\n" ∧
      (answer .run).stderr =
        "[line 1] Error: Unexpected character: @\n[line 1] Error at end: Expect expression.\n" ∧
      (answer .resolve).stderr = (answer .run).stderr ∧
      ∀ command, (answer command).code = 65 := by
  intro limits answer
  obtain ⟨-, -, told, -, -, rejects⟩ := commands_agree (fun _ => limits) "file" "@ print"
  have lexical : lexicalErrors "@ print" ≠ [] := by decide +kernel
  have codes (command : Command) : (answer command).code = 65 := (rejects lexical command).1
  obtain ⟨ran, same, -⟩ := told (codes .run)
  have tokenized : (answer .tokenize).stderr = "[line 1] Error: Unexpected character: @\n" := by
    decide +kernel
  have errors : report (staticErrors "@ print") =
      "[line 1] Error: Unexpected character: @\n[line 1] Error at end: Expect expression.\n" := by
    decide +kernel
  exact ⟨lexical, tokenized, ran.trans errors, same, codes⟩

end ScopeScript.CommandLine
