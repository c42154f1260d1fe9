import ScopeScript.Session

/-! What a session is given and what it gives back: sources to run and sources only to
parse, and for every run its outcome and the text it printed. -/
namespace ScopeScript

inductive Input where
  | run (fuel : Nat) (source : String)
  | parse (source : String)

structure Report where
  outcome : Outcome
  printed : ByteArray

/-- What a sink took since it was `before`. -/
def Sink.since (s before : Sink) : ByteArray :=
  s.written.extract before.written.size s.written.size

/-- A later state of a sink. Nothing that was taken is lost. -/
def Sink.Extends (s before : Sink) : Prop := ∃ more, s.written = before.written ++ more

namespace Sink

theorem Extends.refl (s : Sink) : s.Extends s := ⟨.empty, ByteArray.append_empty.symm⟩

theorem Extends.trans {first second third : Sink} (earlier : second.Extends first)
    (later : third.Extends second) : third.Extends first := by
  obtain ⟨bytes, taken⟩ := earlier
  obtain ⟨more, added⟩ := later
  exact ⟨bytes ++ more, by rw [added, taken, ByteArray.append_assoc]⟩

theorem write_extends (s : Sink) (bytes : ByteArray) : (s.write bytes).Extends s := ⟨_, rfl⟩

/-- What is taken in two stretches is taken one after the other. -/
theorem since_append {first second third : Sink} (earlier : second.Extends first)
    (later : third.Extends second) :
    third.since first = second.since first ++ third.since second := by
  obtain ⟨bytes, taken⟩ := earlier
  obtain ⟨more, added⟩ := later
  have here : second.since first = bytes := by
    rw [since, taken, ByteArray.size_append, ByteArray.extract_append_eq_right rfl rfl]
  have there : third.since second = more := by
    rw [since, added, ByteArray.size_append, ByteArray.extract_append_eq_right rfl rfl]
  have whole : third.since first = bytes ++ more := by
    rw [since, added, taken, ByteArray.append_assoc, ByteArray.size_append,
      ByteArray.extract_append_eq_right rfl rfl]
  rw [here, there, whole]

end Sink

namespace Session

/-- The session behind one input, and the report if it was to be run. -/
def answer (s : Session) : Input → Option Report × Session
  | .run fuel source =>
    let (outcome, t) := s.run fuel source
    (some ⟨outcome, t.machine.sink.since s.machine.sink⟩, t)
  | .parse source => (none, (s.parse source).2)

theorem answer_run (s : Session) (fuel : Nat) (source : String) :
    s.answer (.run fuel source) =
      (some ⟨(s.run fuel source).1, (s.run fuel source).2.machine.sink.since s.machine.sink⟩,
        (s.run fuel source).2) := by
  rw [answer]

/-- The reports on all runs of a history, in order. -/
def reports (s : Session) : List Input → List Report
  | [] => []
  | input :: rest =>
    let (report, s) := s.answer input
    report.toList ++ s.reports rest

/-- The session behind a history. -/
def after (s : Session) : List Input → Session
  | [] => s
  | input :: rest => (s.answer input).2.after rest

theorem after_append (s : Session) (inputs more : List Input) :
    s.after (inputs ++ more) = (s.after inputs).after more := by
  induction inputs generalizing s with
  | nil => rfl
  | cons input rest ih => exact ih (s.answer input).2

end Session
end ScopeScript
