import ScopeScript.Proofs.History
import ScopeScript.Proofs.Trace.Closed

/-! Sessions with the moments of their runs. Tracing changes nothing. -/
namespace ScopeScript

variable {α β : Type}

namespace Traced

theorem step_closed : Closed fun p q => p.step = q where
  plain _ := rfl
  print _ := rfl
  setField _ _ _ := rfl
  bind := by
    intro α β p q f g first next
    have same : (fun a => (f a).step) = g := funext next
    rw [← first, ← same]
    rfl
  mark _ same := same

theorem step_evaluate (fuel : Nat) (f : FrameId) (e : Expr) :
    (evaluate fuel f e).step = ScopeScript.evaluate fuel f e :=
  (step_closed.evaluation fuel).1 f e

theorem step_execute (fuel : Nat) (f : FrameId) (s : Stmt) :
    (execute fuel f s).step = ScopeScript.execute fuel f s :=
  (step_closed.evaluation fuel).2.1 f s

theorem step_runProgram (fuel : Nat) (program : List Stmt) :
    (runProgram fuel program).step = ScopeScript.runProgram fuel program :=
  step_closed.runProgram fuel program

/-- Tracing changes nothing, and every expression, every statement and everything that is printed or
set is told of when its time comes. -/
structure Faithful : Prop where
  values : ∀ fuel f e, (evaluate fuel f e).step = ScopeScript.evaluate fuel f e
  runs : ∀ fuel f s, (execute fuel f s).step = ScopeScript.execute fuel f s
  programs : ∀ fuel program, (interpret fuel program).step = ScopeScript.interpret fuel program
  valueTold : ∀ fuel f e m,
    ((evaluate (fuel + 1) f e).moments m).head? = some ⟨.value f e, m⟩
  statementTold : ∀ fuel f s m,
    ((execute (fuel + 1) f s).moments m).head? = some ⟨.statement f s, m⟩
  printTold : ∀ v m, (print v).moments m = [⟨.print v, m⟩]
  setTold : ∀ object name v m, (setField object name v).moments m = [⟨.set object name v, m⟩]

theorem faithful : Faithful where
  values := step_evaluate
  runs := step_execute
  programs fuel program := by
    rw [ScopeScript.interpret, ← step_runProgram]
    rfl
  valueTold fuel f e m := by
    unfold evaluate
    rfl
  statementTold fuel f s m := by
    unfold execute
    rfl
  printTold _ _ := rfl
  setTold _ _ _ _ := rfl

end Traced

theorem machineBehind_onMachineBehind (change : Machine → Machine)
    (r : EStateM.Result Stop Machine α) :
    machineBehind (onMachineBehind change r) = change (machineBehind r) := by
  cases r <;> rfl

theorem Blind.sink {p : Eval α} (blind : Blind p) (m : Machine) :
    (machineBehind (p m)).sink = m.sink := by
  have same := congrArg (fun r => (machineBehind r).sink) (blind m m.sink)
  rw [machineBehind_onMachineBehind] at same
  exact same

/-! The texts of a sink are not changed. -/

/-- The texts of a sink for what it refuses. -/
def Sink.texts (s : Sink) : String × String := (s.fullText, s.flushText)

/-- A step behind which the sink has the same texts. -/
def KeepsTexts (p : Eval α) : Prop := ∀ m, (machineBehind (p m)).sink.texts = m.sink.texts

theorem Traced.keepsTexts_closed : Closed fun _ q => KeepsTexts q where
  plain plain m := congrArg Sink.texts (plain.sink.sink m)
  print v m := by
    simp only [Eval.print]
    split <;> rfl
  setField _ _ _ _ := rfl
  bind := by
    intro α β p q f g first next m
    have here := first m
    simp only [Bind.bind, EStateM.bind]
    cases ran : q m with
    | ok a m' =>
      rw [ran] at here
      exact (next a m').trans here
    | error stop m' =>
      rw [ran] at here
      exact here
  mark _ keeps := keeps

/-- The sink behind a program has the texts it had before. -/
theorem runProgram_flushText (fuel : Nat) (program : List Stmt) (m : Machine) :
    (machineBehind (runProgram fuel program m)).sink.flushText = m.sink.flushText :=
  congrArg Prod.snd (Traced.keepsTexts_closed.runProgram fuel program m)

/-- The moments of a run. An input that fails the static checks has none. -/
def Session.trace (fuel : Nat) (s : Session) (source : String) : List Moment :=
  match s.check source with
  | (.error _, _) => []
  | (.ok checked, ⟨machine, _⟩) =>
    (Traced.interpret fuel checked.program).moments (machine.note checked.entries)

/-! A run, told by what the static checks say. -/

def Outcome.ofResult : EStateM.Result Stop Machine Unit → Outcome
  | .ok _ _ => .finished
  | .error stop _ => .ofStop stop

namespace Session
variable {s : Session} {fuel : Nat} {source : String} {next : ExprId}

section
variable {errors : List Diagnostic}
  (rejected : checkSource s.machine.globalNames s.nextId source = (.error errors, next))
include rejected

theorem run_of_errors : s.run fuel source = (.rejected errors, { s with nextId := next }) := by
  rw [run, check, rejected]

theorem trace_of_errors : s.trace fuel source = [] := by
  simp only [trace, check, rejected]

end

section
variable {checked : Checked}
  (passed : checkSource s.machine.globalNames s.nextId source = (.ok checked, next))
include passed

theorem run_of_checked : s.run fuel source =
    (.ofResult (interpret fuel checked.program (s.machine.note checked.entries)),
      ⟨machineBehind (interpret fuel checked.program (s.machine.note checked.entries)), next⟩) := by
  simp only [run, check, passed]
  cases interpret fuel checked.program (s.machine.note checked.entries) <;> rfl

theorem trace_of_checked : s.trace fuel source =
    (Traced.interpret fuel checked.program).moments (s.machine.note checked.entries) := by
  simp only [trace, check, passed]

end
end Session
end ScopeScript
