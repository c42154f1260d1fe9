import ScopeScript.Session
import ScopeScript.Text.Blank
import ScopeScript.Tree.Printer

/-! What each command answers: the text on both output streams and the exit code. -/
namespace ScopeScript.CommandLine

/-- The commands that read a file. -/
inductive Command where
  | tokenize | parse | resolve | run
  deriving DecidableEq, Repr

/-- What became of the attempt to read a file. -/
inductive FileRead where
  | contents (bytes : List UInt8)
  | unopened (reason : String)
  | unread (reason : String)

structure Response where
  stdout : String := ""
  stderr : String := ""
  code : Nat := 0
  deriving DecidableEq, Repr

/-- What evaluation is given: a bound on its steps and the clock's readings. -/
structure Limits where
  fuel : Nat
  clock : Clock

def lines (texts : List String) : String := String.join (texts.map (· ++ "\n"))

def report (errors : List Diagnostic) : String := lines (errors.map (·.text))

def rejected (errors : List Diagnostic) : Response := { stderr := report errors, code := 65 }

/-- Every token on one stream and every lexical error on the other. -/
def tokenize (source : String) : Response :=
  let errors := lexicalErrors source
  { stdout := lines ((tokens source).map (·.listing))
    stderr := report (errors.map .lexical)
    code := if errors.isEmpty then 0 else 65 }

/-- The tree of a source that is one expression. -/
def parse (source : String) : Response :=
  let lexical := (lexicalErrors source).map Diagnostic.lexical
  match parseExpression (tokens source) 0, lexical with
  | .ok e, [] => { stdout := e.render ++ "\n" }
  | .ok _, errors => rejected errors
  | .error e, errors => rejected (errors ++ [.parse e])

/-- The distances of local uses as an object with one member a line. -/
def distancesText (d : Distances) : String :=
  match d.toList with
  | [] => "\x7b\n  \"locals\": \x7b\x7d\n\x7d\n"
  | entries =>
    let members := entries.map fun (id, distance) =>
      "    \"" ++ toString id ++ "\": " ++ toString distance
    "\x7b\n  \"locals\": \x7b\n" ++ ",\n".intercalate members ++ "\n  \x7d\n\x7d\n"

/-- The distances in a source, which is parsed and resolved but not run. -/
def resolve (limits : Limits) (source : String) : Response :=
  match (Session.start {} limits.clock).parse source with
  | (.error errors, _) => rejected errors
  | (.ok program, s) =>
    match ScopeScript.resolve s.machine.globalNames program with
    | .error errors => rejected (errors.map .scope)
    | .ok entries => { stdout := distancesText (Distances.note {} entries) }

/-- What a sink has taken, as text. -/
def sinkText (s : Sink) : String :=
  match String.fromUTF8? s.written with
  | some text => text
  | none => Utf8.shown s.written.toList

def run (limits : Limits) (source : String) : Response :=
  let (outcome, s) := (Session.start {} limits.clock).run limits.fuel source
  { stdout := sinkText s.machine.sink
    stderr := report outcome.errors
    code := outcome.exitCode }

def onSource (limits : Limits) : Command → String → Response
  | .tokenize => tokenize
  | .parse => parse
  | .resolve => resolve limits
  | .run => run limits

/-- A failure to get at a file, with its reason. -/
def fileFailure (action path reason : String) : Response where
  stderr := "Error: Failed to " ++ action ++ " file \"" ++ path ++ "\"\n\nCaused by:\n    " ++
    reason ++ "\n"
  code := 1

def noFile : Response := { stdout := "No input filepath was provided. Exiting...\n" }

/-- Runs a command on what was read from the file at `path`. -/
def onFile (limits : Limits) (command : Command) (path : String) : FileRead → Response
  | .unopened reason => fileFailure "open" path reason
  | .unread reason => fileFailure "read" path reason
  | .contents bytes =>
    match Utf8.decode bytes with
    | .ok source => onSource limits command source
    | .error e => { stderr := report [.encoding e], code := (Diagnostic.encoding e).exitCode }

/-- What the prompt does with a line: it runs it and goes on, or it ends with a code. -/
inductive Reply where
  | goesOn (stdout stderr : String) (session : Session)
  | ends (stderr : String) (code : Nat)

def promptText : String := "> "

def quitWords : List String := [":q", ":quit", ":exit"]

/-- Takes what a session has printed out of its sink. -/
def takeOutput (s : Session) : String × Session :=
  let machine := s.machine
  (sinkText machine.sink,
    { s with machine := { machine with sink := { machine.sink with written := .empty } } })

/-- Answers one line, which is run without the blanks around it. -/
def reply (fuel : Nat) (s : Session) (line : List UInt8) : Reply :=
  match Utf8.decode line with
  | .error _ => .ends "Error: stream did not contain valid UTF-8\n" 1
  | .ok text =>
    let input := Text.trim text
    if input ∈ quitWords then .ends "" 0
    else if input = "" then .goesOn "" "" s
    else
      let (outcome, s) := s.run fuel input
      let (printed, s) := takeOutput s
      .goesOn printed (report outcome.errors) s

/-- The lines of an input, each with the newline that ends it. -/
def splitLines (bytes : List UInt8) : List (List UInt8) :=
  bytes.foldr
    (fun b lines =>
      if b = 10 then [b] :: lines
      else match lines with
        | [] => [[b]]
        | line :: rest => (b :: line) :: rest)
    []

/-- A prompt before every line and one before the end of the input. -/
def prompt (fuel : Nat) (s : Session) : List (List UInt8) → Response
  | [] => { stdout := promptText }
  | line :: rest =>
    match reply fuel s line with
    | .ends stderr code => { stdout := promptText, stderr, code }
    | .goesOn stdout stderr s =>
      let more := prompt fuel s rest
      { more with
        stdout := promptText ++ stdout ++ more.stdout
        stderr := stderr ++ more.stderr }

/-- An interactive session on an input known in advance. -/
def interactive (limits : Limits) (input : List UInt8) : Response :=
  prompt limits.fuel (.start {} limits.clock) (splitLines input)

end ScopeScript.CommandLine
