import ScopeScript.Proofs.Lexical.Natural
import ScopeScript.Proofs.Lexical.Session
import ScopeScript.Proofs.Token.Join

/-! Running code that stands on other lines. A program behind another one does what it does on the
machine that the other one leaves. When the lines of the program change, and those of the functions
on the machine, all that can change is the line of a failure: it changes as the lines of the code do
that the failing token stands in. -/
namespace ScopeScript

/-- The outcome with another line for a runtime failure. -/
def Outcome.onLine (line : Nat → Nat) : Outcome → Outcome
  | failed (.runtime e) => failed (.runtime { e with line := line e.line })
  | outcome => outcome

namespace Lexical

variable {fuel : Nat} {m l : Machine} {program : List Stmt}

theorem runEach_of_interpret (ran : interpret fuel program m = .ok () l) :
    ∃ flow, Eval.runEach (execute fuel) .top program m = .ok flow l := by
  unfold interpret at ran
  simp only [bind, EStateM.bind] at ran
  cases found : Eval.runEach (execute fuel) .top program m with
  | error stop l' => simp [found] at ran
  | ok flow l' =>
    simp only [found, Eval.flush] at ran
    split at ran
    · cases ran
      exact ⟨flow, rfl⟩
    · contradiction

theorem runEach_append {run : Scope → Stmt → Eval Flow} {scope scope' : Scope}
    {first : List Stmt} (front : Eval.runEach run scope first m = .ok (.normal scope') l)
    (second : List Stmt) :
    Eval.runEach run scope (first ++ second) m = Eval.runEach run scope' second l := by
  induction first generalizing scope m with
  | nil =>
    cases front
    rfl
  | cons s rest ih =>
    rw [Eval.runEach] at front
    rw [List.cons_append, Eval.runEach]
    simp only [bind, EStateM.bind] at front ⊢
    cases ran : run scope s m with
    | error stop l' => simp [ran] at front
    | ok flow l' =>
      rw [ran] at front
      cases flow with
      | normal scope => exact ih front
      | returned v => cases front

/-- A program behind one that ran through. -/
theorem interpret_append {first : List Stmt}
    (front : Eval.runEach (execute fuel) .top first m = .ok (.normal .top) l)
    (second : List Stmt) : interpret fuel (first ++ second) m = interpret fuel second l := by
  unfold interpret
  simp only [bind, EStateM.bind, runEach_append front]

/-- The outcome of a run and the machine it leaves. -/
def ending : EStateM.Result Stop Machine Unit → Outcome × Machine
  | .ok _ m => (.finished, m)
  | .error stop m => (.ofStop stop, m)

theorem Session.run_of_check {s : Session} {source : String} {checked : Checked} {next : ExprId}
    (passed : checkSource s.machine.globalNames s.nextId source = (.ok checked, next)) :
    s.run fuel source =
      ((ending (interpret fuel checked.program s.machine)).1,
        ⟨(ending (interpret fuel checked.program s.machine)).2, next⟩) := by
  unfold Session.run
  rw [passed]
  dsimp only
  cases interpret fuel checked.program s.machine <;> rfl

end Lexical

/-! To tell the lines of a program from those of the code on the machine, the first are made odd and
the others even. -/

def Relabel.evenLines : Relabel := .lines fun line => 2 * line

def Relabel.oddLines : Relabel := .lines fun line => 2 * line + 1

/-- Back to single lines, with one change for the even ones and another for the odd ones. -/
def Relabel.halved (earlier later : Nat → Nat) : Relabel :=
  .lines fun line => if line % 2 = 1 then later (line / 2) else earlier (line / 2)

section
variable (earlier later : Nat → Nat)

theorem Relabel.halved_comp_evenLines : (halved earlier later).comp evenLines = .lines earlier := by
  have lines : (fun line => if 2 * line % 2 = 1 then later (2 * line / 2)
      else earlier (2 * line / 2)) = earlier := by
    funext line
    rw [if_neg (by omega), Nat.mul_div_cancel_left line Nat.two_pos]
  exact congrArg Relabel.lines lines

theorem Relabel.halved_comp_oddLines : (halved earlier later).comp oddLines = .lines later := by
  have lines : (fun line => if (2 * line + 1) % 2 = 1 then later ((2 * line + 1) / 2)
      else earlier ((2 * line + 1) / 2)) = later := by
    funext line
    have half : (2 * line + 1) / 2 = line := by omega
    rw [if_pos (by omega), half]
  exact congrArg Relabel.lines lines

end

/-- An odd line is one of the program, whatever the changes are. -/
theorem Stop.relabel_halved (stop : Stop) :
    ∃ own : Bool, ∀ earlier later, Outcome.ofStop (stop.relabel (.halved earlier later)) =
      (Outcome.ofStop (stop.relabel (.halved id id))).onLine (if own then later else earlier) := by
  cases stop with
  | error e =>
    refine ⟨decide (e.line % 2 = 1), fun earlier later => ?_⟩
    by_cases odd : e.line % 2 = 1 <;>
      simp [Stop.relabel, Relabel.halved, Relabel.lines, Outcome.ofStop, Outcome.onLine, odd]
  | output e => exact ⟨false, fun _ _ => rfl⟩
  | fault f => exact ⟨false, fun _ _ => rfl⟩
  | exhausted => exact ⟨false, fun _ _ => rfl⟩

namespace Lexical

theorem interpret_lines (fuel : Nat) (program : List Stmt) (m : Machine)
    (earlier later : Nat → Nat) :
    interpret fuel (Stmt.relabelEach (.lines later) program) (m.relabel (.lines earlier)) =
      relabelResult (.halved earlier later) id
        (interpret fuel (Stmt.relabelEach .oddLines program) (m.relabel .evenLines)) := by
  have moved := interpret_natural (.halved earlier later) fuel (Stmt.relabelEach .oddLines program)
    (m.relabel .evenLines)
  rwa [Stmt.relabelEach_relabelEach, Relabel.halved_comp_oddLines, Machine.relabel_relabel,
    Relabel.halved_comp_evenLines] at moved

theorem interpret_eq_relabelResult (fuel : Nat) (program : List Stmt) (m : Machine) :
    interpret fuel program m = relabelResult (.halved id id) id
      (interpret fuel (Stmt.relabelEach .oddLines program) (m.relabel .evenLines)) := by
  have same := interpret_lines fuel program m id id
  rwa [show Relabel.lines id = .refl from rfl, Stmt.relabelEach_refl, Machine.relabel_refl] at same

/-- Whether a program that fails does so at a token of its own: the line of the failure then changes
as the lines of the program do. At a token of a function on the machine, it changes as the lines
of the code on the machine do. -/
def FailsInProgram (fuel : Nat) (program : List Stmt) (m : Machine) (own : Bool) : Prop :=
  ∀ earlier later : Nat → Nat,
    (ending (interpret fuel (Stmt.relabelEach (.lines later) program)
        (m.relabel (.lines earlier)))).1 =
      (ending (interpret fuel program m)).1.onLine (if own then later else earlier)

/-- The token of a failure stands in the program or on the machine. -/
theorem exists_failsInProgram (fuel : Nat) (program : List Stmt) (m : Machine) :
    ∃ own, FailsInProgram fuel program m own := by
  simp only [FailsInProgram, interpret_lines, interpret_eq_relabelResult fuel program m]
  cases interpret fuel (Stmt.relabelEach .oddLines program) (m.relabel .evenLines) with
  | ok _ l => exact ⟨false, fun _ _ => rfl⟩
  | error stop l => exact stop.relabel_halved

/-- Nothing but the line of a failure changes. -/
theorem ending_lines (fuel : Nat) (program : List Stmt) (m : Machine) (earlier later : Nat → Nat) :
    let still := (ending (interpret fuel program m)).2
    let moved := (ending (interpret fuel (Stmt.relabelEach (.lines later) program)
      (m.relabel (.lines earlier)))).2
    moved.sink = still.sink ∧ moved.globalNames = still.globalNames := by
  rw [interpret_lines, interpret_eq_relabelResult fuel program m]
  cases interpret fuel (Stmt.relabelEach .oddLines program) (m.relabel .evenLines) <;>
    simp only [relabelResult, ending, Machine.relabel_sink, Machine.relabel_globalNames,
      and_self]

/-- A change of lines that leaves the program and the machine alone leaves the line of a failure
alone. -/
theorem FailsInProgram.line_eq {fuel : Nat} {program : List Stmt} {m : Machine} {own : Bool}
    (fails : FailsInProgram fuel program m own) {e : RuntimeError}
    (failed : (ending (interpret fuel program m)).1 = .failed (.runtime e))
    {earlier later : Nat → Nat} (program_eq : Stmt.relabelEach (.lines later) program = program)
    (machine_eq : m.relabel (.lines earlier) = m) :
    (if own then later else earlier) e.line = e.line := by
  have same := fails earlier later
  rw [program_eq, machine_eq, failed] at same
  exact (congrArg RuntimeError.line (Diagnostic.runtime.inj (Outcome.failed.inj same))).symm

end Lexical
end ScopeScript
