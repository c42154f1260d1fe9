import ScopeScript.Proofs.Lexical.Renumber
import ScopeScript.Proofs.Simulation.Session

/-! Inputs that fail the static checks. They are not run, and later inputs answer as if they had
never been given, although the numbers of all later nodes have changed. -/
namespace ScopeScript

def Outcome.isRejected : Outcome → Bool
  | rejected _ => true
  | finished | failed _ | faulted _ | exhausted => false

/-- Whether a source passed the static checks. -/
def Report.passed (r : Report) : Bool := !r.outcome.isRejected

/-- The history without the inputs that were not run: those only to be parsed and those that
failed the static checks. -/
def Session.kept (s : Session) : List Input → List Input
  | [] => []
  | input :: rest =>
    let (report, s) := s.answer input
    match report.any Report.passed with
    | true => input :: s.kept rest
    | false => s.kept rest

theorem Outcome.isRejected_ofStop (stop : Stop) : (Outcome.ofStop stop).isRejected = false := by
  cases stop <;> rfl

/-- A run is rejected exactly if the static checks find an error, and then nothing else is done
than to use up numbers. -/
theorem Session.run_of_rejected {s : Session} {fuel : Nat} {source : String}
    (rejected : (s.run fuel source).1.isRejected = true) :
    (s.run fuel source).2 =
      { s with nextId := (checkSource s.machine.globalNames s.nextId source).2 } := by
  unfold Session.run Session.check at rejected ⊢
  generalize checkSource s.machine.globalNames s.nextId source = found at rejected ⊢
  obtain ⟨errors | checked, next⟩ := found
  · rfl
  · dsimp only at rejected ⊢
    cases ran : interpret fuel checked.program (s.machine.note checked.entries) with
    | ok _ m =>
      rw [ran] at rejected
      contradiction
    | error stop m =>
      rw [ran, Outcome.isRejected_ofStop] at rejected
      contradiction

/-- Sessions whose lexical sessions differ in the numbers of nodes only answer alike, the one to a
history and the other to what is kept of it. -/
theorem Session.Mirrors.reports_kept {s s' : Session} {t t' : Lexical.Session}
    (mirrors : s.Mirrors t) (mirrors' : s'.Mirrors t') (alike : t.Alike t')
    (inputs : List Input) :
    s'.reports (s.kept inputs) = (s.reports inputs).filter Report.passed := by
  induction inputs generalizing s s' t t' with
  | nil => rfl
  | cons input rest ih =>
    cases input with
    | parse source => exact ih (mirrors.answer (.parse source)).2.2 mirrors' alike
    | run fuel source =>
      simp only [Session.kept, Session.reports, Session.answer, Option.any_some,
        Option.toList_some, List.singleton_append]
      cases rejected : (s.run fuel source).1.isRejected with
      | true =>
        -- the history goes on as if nothing had been given but for the next number
        have counts := checkSource_nextId s.machine.globalNames s.nextId source
        simp only [Report.passed, rejected, Bool.not_true, List.filter_cons, Bool.false_eq_true,
          if_false, Session.run_of_rejected rejected]
        exact ih (mirrors.skip counts) mirrors' alike
      | false =>
        obtain ⟨outcome, _, _, behind⟩ := mirrors.run fuel source
        obtain ⟨outcome', _, _, behind'⟩ := mirrors'.run fuel source
        have passed : ∀ errors, (t.run fuel source).1 ≠ .rejected errors := by
          intro errors h
          rw [outcome, h] at rejected
          contradiction
        obtain ⟨same, alike'⟩ := alike.run passed
        have printed : (s'.run fuel source).2.machine.sink.since s'.machine.sink =
            (s.run fuel source).2.machine.sink.since s.machine.sink := by
          rw [behind'.sink_eq, mirrors'.sink_eq, alike'.sink_eq, alike.sink_eq, ← behind.sink_eq,
            ← mirrors.sink_eq]
        have report : (s'.run fuel source).1 = (s.run fuel source).1 := by
          rw [outcome', same, outcome]
        simp only [Report.passed, rejected, Bool.not_false, List.filter_cons, if_true,
          Session.reports, Session.answer, Option.toList_some, List.singleton_append, printed,
          report]
        rw [ih behind behind' alike']

/-- An input that fails the static checks leaves no trace. The machine is what it was before, and
a history without such inputs, and without those only to be parsed, has the same reports on all
other runs. -/
theorem rejected_inputs_leave_no_trace (sink : Sink) (clock : Clock) (inputs : List Input) :
    (∀ (s : Session) (fuel : Nat) (source : String) (errors : List Diagnostic),
      (s.run fuel source).1 = .rejected errors → (s.run fuel source).2.machine = s.machine) ∧
    (Session.start sink clock).reports ((Session.start sink clock).kept inputs) =
      ((Session.start sink clock).reports inputs).filter Report.passed := by
  constructor
  · intro s fuel source errors rejected
    rw [Session.run_of_rejected (by rw [rejected]; rfl)]
  · have mirrors := Session.start_mirrors sink clock
    exact mirrors.reports_kept mirrors rfl inputs

end ScopeScript
