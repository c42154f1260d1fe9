import ScopeScript.Proofs.History
import ScopeScript.Proofs.Lexical.Evaluate

/-! Sessions by lexical scoping. The static checks decide whether an input is run; the
distances they find are not used. -/
namespace ScopeScript.Lexical

structure Session where
  machine : Machine
  nextId : ExprId := 0

namespace Session

def start (sink : Sink) (clock : Clock) : Session where
  machine := .start sink clock

def run (fuel : Nat) (s : Session) (source : String) : Outcome × Session :=
  match checkSource s.machine.globalNames s.nextId source with
  | (.error errors, nextId) => (.rejected errors, { s with nextId })
  | (.ok checked, nextId) =>
    match interpret fuel checked.program s.machine with
    | .ok _ machine => (.finished, ⟨machine, nextId⟩)
    | .error stop machine => (.ofStop stop, ⟨machine, nextId⟩)

def answer (s : Session) : Input → Option Report × Session
  | .run fuel source =>
    let (outcome, t) := s.run fuel source
    (some ⟨outcome, t.machine.sink.since s.machine.sink⟩, t)
  | .parse source => (none, { s with nextId := (parseSource s.nextId source).2 })

theorem answer_run (s : Session) (fuel : Nat) (source : String) :
    s.answer (.run fuel source) =
      (some ⟨(s.run fuel source).1, (s.run fuel source).2.machine.sink.since s.machine.sink⟩,
        (s.run fuel source).2) := by
  rw [answer]

def reports (s : Session) : List Input → List Report
  | [] => []
  | input :: rest =>
    let (report, s) := s.answer input
    report.toList ++ s.reports rest

def after (s : Session) : List Input → Session
  | [] => s
  | input :: rest => (s.answer input).2.after rest

end Session
end ScopeScript.Lexical
