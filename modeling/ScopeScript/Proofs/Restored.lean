import ScopeScript.Proofs.Frames.Focus
import ScopeScript.Proofs.Frames.Growth

/-! What evaluation leaves behind. Whichever way an expression, a statement or a call is left, the
frame that code runs in is the one from before, and frames and objects have lost nothing. -/
namespace ScopeScript

namespace Focus
variable {α : Type}

/-- A machine in shape, with a current frame that is there. -/
structure Sound (r : Focus) : Prop where
  machine : r.machine.Sound
  current : r.current < r.machine.store.frames.size
  globals : r.globals = globalFrame

/-- The state at the end, however it came about. -/
def behind : EStateM.Result Stop Focus α → Focus
  | .ok _ r | .error _ r => r

/-- Whether there is a way out: a result, an error of the program or one of its output. -/
def returns : EStateM.Result Stop Focus α → Bool
  | .ok _ _ => true
  | .error stop _ => !stop.breaksOff

/-- A result without the frames. -/
def onMachine : EStateM.Result Stop Focus α → EStateM.Result Stop Machine α
  | .ok a r => .ok a r.machine
  | .error stop r => .error stop r.machine

/-- How a step that started in `r` may end. The frames are the same again behind every way out.
Even behind a fault the machine has only grown and is in shape, so that no chain of frames meets
itself, and functions, classes and objects still have all that they refer to. -/
structure Exit (r : Focus) (result : EStateM.Result Stop Focus α) : Prop where
  restored : returns result = true →
    (behind result).current = r.current ∧ (behind result).globals = r.globals
  grown : r.machine.Grows (behind result).machine
  sound : (behind result).machine.Sound
  chains : ∀ f, ((behind result).machine.store.chain f).Pairwise (· > ·)
  values : ∀ v : Value, v.Live r.machine → v.Live (behind result).machine

theorem Agrees.exit {r : Focus} {left : EStateM.Result Stop Focus α}
    {right : EStateM.Result Stop Machine α} {good : Machine → α → Prop}
    (agrees : Agrees r left right) (kept : Kept r.machine good right) :
    r.Exit left ∧ onMachine left = right := by
  have heap : (behind left).machine.Sound ∧ r.machine.Grows (behind left).machine := by
    cases agrees with
    | ok a m => exact ⟨kept.1, kept.2.1⟩
    | stopped stop m => exact kept
    | brokeOff off r' => exact kept
  obtain ⟨sound, grown⟩ := heap
  constructor
  · refine ⟨fun returned => ?_, grown, sound, sound.chain_descends, fun v live => live.mono grown⟩
    cases agrees with
    | ok a m => exact ⟨rfl, rfl⟩
    | stopped stop m => exact ⟨rfl, rfl⟩
    | brokeOff off r' =>
      rw [returns, off] at returned
      contradiction
  · cases agrees <;> rfl

/-- A step that follows another one which keeps the heap in shape. -/
theorem Follows.exit {p : Step α} {q : FrameId → Eval α} {good : Machine → α → Prop}
    (follows : Follows p q) {r : Focus} (sound : r.Sound)
    (keeps : Keeps r.machine (q r.current) good) :
    r.Exit (p r) ∧ onMachine (p r) = q r.current r.machine :=
  (follows r sound.globals).exit (keeps sound.machine)

end Focus

theorem Machine.start_sound (sink : Sink) (clock : Clock) : (Machine.start sink clock).Sound := by
  have frame (f : FrameId) : ((Machine.start sink clock).store.frame f).enclosing = none := by
    rw [Machine.start, Store.frame_add]
    split <;> rfl
  refine ⟨fun f g link => ?_, fun f => ?_, nofun⟩
  · rw [frame] at link
    contradiction
  · rw [Machine.start, Store.frame_add]
    split
    · exact Table.live_ofList (List.forall_mem_singleton.mpr trivial)
    · exact nofun

theorem Machine.Sound.note {m : Machine} (sound : m.Sound) (entries : List (ExprId × Nat)) :
    (m.note entries).Sound :=
  sound.apart rfl rfl

/-- Whatever an expression, a statement or a call does, and however wrong the noted distances are,
it leaves the frames and objects as they were but for what is added to them. Evaluation with a
current frame does what evaluation in a given frame does, and the frame is back on every way out,
so that each program of a session can be run in the frame that is current then. -/
theorem exits_restore_frames (fuel : Nat) (r : Focus) (sound : r.Sound) :
    (∀ e, r.Exit (Focus.evaluate fuel e r) ∧
      Focus.onMachine (Focus.evaluate fuel e r) = evaluate fuel r.current e r.machine) ∧
    (∀ s, r.Exit (Focus.execute fuel s r) ∧
      Focus.onMachine (Focus.execute fuel s r) = execute fuel r.current s r.machine) ∧
    (∀ (callee : Value) (arguments : List Value) (closing : Lexeme), callee.Live r.machine →
      (∀ v ∈ arguments, v.Live r.machine) →
      r.Exit (Focus.call (Focus.execute fuel) callee arguments closing r) ∧
      Focus.onMachine (Focus.call (Focus.execute fuel) callee arguments closing r) =
        Eval.call (execute fuel) callee arguments closing r.machine) ∧
    ∀ program, r.current = globalFrame → r.Exit (Focus.interpret fuel program r) ∧
      Focus.onMachine (Focus.interpret fuel program r) = interpret fuel program r.machine := by
  obtain ⟨values, runs, _⟩ := Focus.evaluation_follows fuel
  obtain ⟨keepsValues, keepsRuns, _⟩ := evaluation_keeps fuel
  refine ⟨fun e => ?_, fun s => ?_, fun callee arguments closing live given => ?_,
    fun program top => ?_⟩
  · exact (values e).exit sound (keepsValues e sound.current)
  · exact (runs s).exit sound (keepsRuns s sound.current)
  · have keeps := Keeps.call keepsRuns live given closing
    exact (Focus.Follows.call runs callee arguments closing).exit sound keeps
  · have nonempty := Nat.lt_of_le_of_lt (Nat.zero_le _) sound.current
    have agrees := Focus.interpret_agrees fuel program sound.globals top
    exact agrees.exit (Keeps.interpret fuel program nonempty sound.machine)

/-- The statement `{ var x; fun f() { { var x; x(); } } f(); }`. -/
def failingCall : Stmt :=
  .block [.var ⟨"x", 1⟩ none,
    .function (.mk ⟨"f", 1⟩ [] [.block [.var ⟨"x", 1⟩ none,
      .expression (.call 1 (.var 0 ⟨"x", 1⟩) [] ⟨")", 1⟩)]]),
    .expression (.call 3 (.var 2 ⟨"f", 1⟩) [] ⟨")", 1⟩)]

/-- An error inside a block inside a call inside a block. The inner `x` is noted two scopes too far
out, where another one is. -/
theorem failingCall_restores_frame :
    let machine := (Machine.start {} ⟨fun _ => 0, 0⟩).note [(0, 2), (2, 0)]
    let result := Focus.execute 9 failingCall ⟨machine, globalFrame, globalFrame⟩
    Focus.returns result = true ∧ (Focus.behind result).machine.store.frames.size = 4 ∧
      (Focus.behind result).current = globalFrame ∧
      ((Focus.behind result).machine.store.chain 3).Pairwise (· > ·) := by
  intro machine result
  have start : machine.Sound := (Machine.start_sound {} ⟨fun _ => 0, 0⟩).note _
  have sound : Focus.Sound ⟨machine, globalFrame, globalFrame⟩ :=
    ⟨start, by decide +kernel, rfl⟩
  have returned : Focus.returns result = true := by decide +kernel
  have exit : Focus.Exit ⟨machine, globalFrame, globalFrame⟩ result :=
    ((exits_restore_frames 9 _ sound).2.1 failingCall).1
  have size : (Focus.behind result).machine.store.frames.size = 4 := by decide +kernel
  clear_value result
  exact ⟨returned, size, (exit.restored returned).1, exit.chains 3⟩

end ScopeScript
