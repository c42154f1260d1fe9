import ScopeScript.Diagnostic
import ScopeScript.Machine.Evaluate
import ScopeScript.Parse.Program

/-! A session runs one source after the other on one machine. An input that fails the
static checks is not run at all; only the numbers given to its expressions are used up. -/
namespace ScopeScript

structure Session where
  machine : Machine
  nextId : ExprId := 0

/-- How the run of an input ends. -/
inductive Outcome where
  | finished
  | rejected (errors : List Diagnostic)
  | failed (error : Diagnostic)
  | faulted (fault : Fault)
  | exhausted
  deriving DecidableEq

namespace Outcome

def ofStop : Stop → Outcome
  | .error e => failed (.runtime e)
  | .output e => failed (.output e)
  | .fault f => faulted f
  | .exhausted => exhausted

/-- Everything an outcome has to report, in order. -/
def errors : Outcome → List Diagnostic
  | rejected errors => errors
  | failed error => [error]
  | finished | faulted _ | exhausted => []

def exitCode : Outcome → Nat
  | finished => 0
  | rejected _ => 65
  | failed error => error.exitCode
  | faulted _ | exhausted => 70

end Outcome

/-- Scans and parses a source, numbering expression nodes from `nextId`. Its lexical errors
come before its parse errors. -/
def parseSource (nextId : ExprId) (source : String) :
    Except (List Diagnostic) (List Stmt) × ExprId :=
  let parsed := parseTokens (tokens source) nextId
  let errors := (lexicalErrors source).map .lexical ++ parsed.errors.map .parse
  (if errors.isEmpty then .ok parsed.statements else .error errors, parsed.nextId)

/-- A program that passed the static checks, with the distances of its local names. -/
structure Checked where
  program : List Stmt
  entries : List (ExprId × Nat)

/-- Parses a source and checks its scoping against the globals there are. -/
def checkSource (globals : List String) (nextId : ExprId) (source : String) :
    Except (List Diagnostic) Checked × ExprId :=
  match parseSource nextId source with
  | (.error errors, nextId) => (.error errors, nextId)
  | (.ok program, nextId) =>
    match resolve globals program with
    | .error errors => (.error (errors.map .scope), nextId)
    | .ok entries => (.ok ⟨program, entries⟩, nextId)

namespace Session

def start (sink : Sink) (clock : Clock) : Session where
  machine := .start sink clock

def parse (s : Session) (source : String) : Except (List Diagnostic) (List Stmt) × Session :=
  let (result, nextId) := parseSource s.nextId source
  (result, { s with nextId })

def check (s : Session) (source : String) : Except (List Diagnostic) Checked × Session :=
  let (result, nextId) := checkSource s.machine.globalNames s.nextId source
  (result, { s with nextId })

/-- Runs a source that passes the static checks. -/
def run (fuel : Nat) (s : Session) (source : String) : Outcome × Session :=
  match s.check source with
  | (.error errors, s) => (.rejected errors, s)
  | (.ok checked, ⟨machine, nextId⟩) =>
    match interpret fuel checked.program (machine.note checked.entries) with
    | .ok _ machine => (.finished, ⟨machine, nextId⟩)
    | .error stop machine => (.ofStop stop, ⟨machine, nextId⟩)

end Session
end ScopeScript
