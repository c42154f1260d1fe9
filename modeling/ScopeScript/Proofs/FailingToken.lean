import ScopeScript.Proofs.Parse.Join
import ScopeScript.Proofs.Simulation.Lines
import ScopeScript.Proofs.Simulation.Session
import ScopeScript.Proofs.Trace.Session

/-! Where the token of a runtime failure stands: in the source that is run, or in a function, method
or class that an earlier source left on the machine. Which of them it is shows when the lines of the
two change apart from each other. -/
namespace ScopeScript

/-- Whether a run that fails does so at a token of its own source. The lines of its program change
by `later`, those of all code that is on the machine already by `earlier`: the line of a failure
follows `later` for a token of the source, and `earlier` for any other. -/
def Session.FailsInSource (s : Session) (fuel : Nat) (source : String) (own : Bool) : Prop :=
  ∃ checked next,
    checkSource s.machine.globalNames s.nextId source = (.ok checked, next) ∧
    ∀ earlier later : Nat → Nat,
      Outcome.ofResult (interpret fuel (Stmt.relabelEach (.lines later) checked.program)
          ((s.machine.note checked.entries).relabel (.lines earlier))) =
        (s.run fuel source).1.onLine (if own then later else earlier)

/-- A runtime failure is at a token of the source or at another one, but not both. -/
theorem Session.FailsInSource.unique {s : Session} {fuel : Nat} {source : String} {own other : Bool}
    (fails : s.FailsInSource fuel source own) (fails' : s.FailsInSource fuel source other)
    {e : RuntimeError} (failed : (s.run fuel source).1 = .failed (.runtime e)) : own = other := by
  obtain ⟨checked, next, found, moves⟩ := fails
  obtain ⟨_, _, again, moves'⟩ := fails'
  rw [found] at again
  cases again
  -- all lines of the program become 1, all others 0
  have same := (moves (fun _ => 0) fun _ => 1).symm.trans (moves' (fun _ => 0) fun _ => 1)
  rw [failed] at same
  have line_eq := congrArg RuntimeError.line (Diagnostic.runtime.inj (Outcome.failed.inj same))
  cases own <;> cases other <;> first | rfl | contradiction

/-! The session with frames fails where the lexical one does. -/

theorem Meets.ofResult_eq {opened : Option FrameId} {w : World} {R : World → Unit → Unit → Prop}
    {p : EStateM.Result Stop Machine Unit} {q : EStateM.Result Stop Lexical.Machine Unit}
    (meets : Meets opened w R p q) : Outcome.ofResult p = (Lexical.ending q).1 := by
  cases p with
  | ok _ m =>
    cases q with
    | ok _ l => rfl
    | error _ _ => exact meets.elim
  | error stop m =>
    cases q with
    | ok _ _ => exact meets.elim
    | error other l => exact congrArg Outcome.ofStop meets.1

namespace Session.Mirrors

variable {s : Session} {t : Lexical.Session} {fuel : Nat} {source : String} {checked : Checked}
  {next : ExprId}

/-- The run of a source, told by the lexical run of its program. -/
theorem outcome_eq (mirrors : s.Mirrors t)
    (passes : checkSource s.machine.globalNames s.nextId source = (.ok checked, next)) :
    (s.run fuel source).1 =
      (Lexical.ending (Lexical.interpret fuel checked.program t.machine)).1 := by
  have passes' : checkSource t.machine.globalNames t.nextId source = (.ok checked, next) := by
    rw [mirrors.globalNames_eq, mirrors.nextId, passes]
  rw [(mirrors.run fuel source).1, Lexical.Session.run_of_check passes']

/-- The same for a run on other lines. -/
theorem ofResult_lines (mirrors : s.Mirrors t)
    (passes : checkSource s.machine.globalNames s.nextId source = (.ok checked, next))
    (earlier later : Nat → Nat) :
    Outcome.ofResult (interpret fuel (Stmt.relabelEach (.lines later) checked.program)
        ((s.machine.note checked.entries).relabel (.lines earlier))) =
      (Lexical.ending (Lexical.interpret fuel (Stmt.relabelEach (.lines later) checked.program)
        (t.machine.relabel (.lines earlier)))).1 := by
  obtain ⟨w, machines, _, current, agrees, _⟩ := mirrors.passed passes
  have agrees' := Stmt.scopedEach_lines later _ agrees
  exact (Sim.interpret fuel current agrees' _ _ (machines.lines earlier)).ofResult_eq

theorem failsInSource_iff (mirrors : s.Mirrors t)
    (passes : checkSource s.machine.globalNames s.nextId source = (.ok checked, next))
    (own : Bool) : s.FailsInSource fuel source own ↔
      Lexical.FailsInProgram fuel checked.program t.machine own := by
  simp only [Session.FailsInSource, Lexical.FailsInProgram, ← mirrors.outcome_eq passes]
  constructor
  · rintro ⟨_, _, again, moves⟩ earlier later
    rw [passes] at again
    cases again
    rw [← mirrors.ofResult_lines passes, moves]
  · intro moves
    refine ⟨checked, next, passes, fun earlier later => ?_⟩
    rw [mirrors.ofResult_lines passes, moves]

end Session.Mirrors

/-! The lines of a failure. -/

namespace Lexical

/-- No code is on the machine at the start. -/
theorem Machine.start_relabel (sink : Sink) (clock : Clock) (r : Relabel) :
    (start sink clock).relabel r = start sink clock := by
  simp only [start, Machine.relabel, Table.map_ofList, Array.map_empty]
  rfl

/-- A change that leaves the lines of a source's tokens alone leaves the code alone that a run of
the source puts on the machine. -/
theorem Session.run_relabel_eq {s : Session} {line : Nat → Nat} {source : String}
    (before : s.machine.relabel (.lines line) = s.machine)
    (fixed : ∀ t ∈ tokens source, line t.line = t.line) (fuel : Nat) :
    (s.run fuel source).2.machine.relabel (.lines line) = (s.run fuel source).2.machine := by
  unfold Session.run
  cases found : checkSource s.machine.globalNames s.nextId source with
  | mk result next =>
    cases result with
    | error errors => exact before
    | ok checked =>
      have program_eq := parseSource_relabel_eq (checkSource_eq_ok.mp found).1 fixed
      have same := interpret_natural (.lines line) fuel checked.program s.machine
      rw [program_eq, before] at same
      dsimp only
      generalize interpret fuel checked.program s.machine = result at same
      cases result with
      | ok _ m => exact (EStateM.Result.ok.inj same).2.symm
      | error stop m => exact (EStateM.Result.error.inj same).2.symm

theorem Session.after_relabel_eq {s : Session} {line : Nat → Nat} (inputs : List Input)
    (before : s.machine.relabel (.lines line) = s.machine)
    (fixed : ∀ fuel source, .run fuel source ∈ inputs → ∀ t ∈ tokens source, line t.line = t.line) :
    (s.after inputs).machine.relabel (.lines line) = (s.after inputs).machine := by
  induction inputs generalizing s with
  | nil => exact before
  | cons input rest ih =>
    refine ih ?_ fun fuel source member => fixed fuel source (List.mem_cons_of_mem _ member)
    cases input with
    | run fuel source =>
      rw [answer_run]
      exact run_relabel_eq before (fixed fuel source List.mem_cons_self) fuel
    | parse source => exact before

end Lexical

/-- Moves the lexemes on one line to the next one. -/
def nextLineAt (here : Nat) : Nat → Nat := fun line => if line = here then line + 1 else line

theorem nextLineAt_ne {here line : Nat} (other : line ≠ here) : nextLineAt here line = line :=
  if_neg other

/-- The line of a runtime failure is that of a token of the source, or else of a source that was run
before. -/
theorem Session.FailsInSource.exists_token {sink : Sink} {clock : Clock} {inputs : List Input}
    {s : Session} (reached : (Session.start sink clock).after inputs = s) {fuel : Nat}
    {source : String} {own : Bool} (fails : s.FailsInSource fuel source own) {e : RuntimeError}
    (failed : (s.run fuel source).1 = .failed (.runtime e)) :
    ∃ origin, ∃ token ∈ tokens origin, token.line = e.line ∧
      if own then origin = source else ∃ fuel, .run fuel origin ∈ inputs := by
  have mirrors := (Session.start_mirrors sink clock).after inputs
  rw [reached] at mirrors
  have ⟨checked, next, passes, _⟩ := fails
  rw [mirrors.failsInSource_iff passes] at fails
  rw [mirrors.outcome_eq passes] at failed
  have moved : nextLineAt e.line e.line ≠ e.line := by simp [nextLineAt]
  -- a line that no token stands on can be moved, and code and machine are what they were
  by_contra missing
  simp only [not_exists, not_and] at missing
  cases own with
  | true =>
    have program_eq : Stmt.relabelEach (.lines (nextLineAt e.line)) checked.program =
        checked.program :=
      parseSource_relabel_eq (checkSource_eq_ok.mp passes).1
        fun t member => nextLineAt_ne fun here => missing source t member here rfl
    exact moved (fails.line_eq failed program_eq (Lexical.Machine.relabel_refl _))
  | false =>
    have machine_eq := Lexical.Session.after_relabel_eq (s := .start sink clock) inputs
      (Lexical.Machine.start_relabel sink clock (.lines (nextLineAt e.line)))
      fun fuel origin member t held =>
        nextLineAt_ne fun here => missing origin t held here ⟨fuel, member⟩
    exact moved (fails.line_eq failed (Stmt.relabelEach_refl _) machine_eq)

end ScopeScript
