import ScopeScript.Proofs.Trace.Cut

/-! What the sink has to do with a run. A run whose output does not fit stops at the value that is
too much, and the bytes that did fit are the first ones of the whole output. If flushing fails, it
fails behind a whole run. -/
namespace ScopeScript
namespace Session

variable {s : Session} {fuel : Nat} {source : String} {n : Nat}

def onSink (change : Sink → Sink) (s : Session) : Session :=
  { s with machine := s.machine.onSink change }

/-- A session whose sink takes everything. -/
def withAllRoom (s : Session) : Session := s.onSink .unlimited

/-- A session whose sink takes `n` bytes more. -/
def withRoom (n : Nat) (s : Session) : Session :=
  s.onSink (.limited (s.machine.sink.written.size + n))

/-- What a run prints. -/
def printed (fuel : Nat) (s : Session) (source : String) : ByteArray :=
  (s.run fuel source).2.machine.sink.since s.machine.sink

/-- What a run with room for `n` bytes has to do with the run that has all the room. -/
structure Truncated (s : Session) (fuel : Nat) (source : String) (n : Nat) : Prop where
  output : (s.withRoom n).printed fuel source = (s.withAllRoom.printed fuel source).extract 0
    (min n (s.withAllRoom.printed fuel source).size)
  fits : (s.withAllRoom.printed fuel source).size ≤ n →
    (s.withRoom n).run fuel source = ((s.withAllRoom.run fuel source).1,
      (s.withAllRoom.run fuel source).2.onSink (.limited (s.machine.sink.written.size + n)))
  /-- The run stops at a print, and nothing but the sink is another than when that print began. -/
  overflows : n < (s.withAllRoom.printed fuel source).size → ∃ t front v m rest,
    (s.withRoom n).run fuel source = (.failed (.output (.full s.machine.sink.fullText)), t) ∧
    s.withAllRoom.trace fuel source = front ++ ⟨.print v, m⟩ :: rest ∧
    (s.withRoom n).trace fuel source = (front ++ [Moment.mk (.print v) m]).map
      (·.onSink (.limited (s.machine.sink.written.size + n))) ∧
    t.machine = m.withSink t.machine.sink

/-- What a run with a sink that cannot be flushed has to do with one that can flush. -/
structure Unflushed (s : Session) (fuel : Nat) (source : String) : Prop where
  finished : ((s.onSink (.flushing true)).run fuel source).1 = .finished →
    ((s.onSink (.flushing false)).run fuel source).1 =
      .failed (.output (.flushRefused s.machine.sink.flushText))
  stopped : ((s.onSink (.flushing true)).run fuel source).1 ≠ .finished →
    ((s.onSink (.flushing false)).run fuel source).1 =
      ((s.onSink (.flushing true)).run fuel source).1
  session : ((s.onSink (.flushing false)).run fuel source).2 =
    ((s.onSink (.flushing true)).run fuel source).2.onSink (.flushing false)
  printed : (s.onSink (.flushing false)).printed fuel source =
    (s.onSink (.flushing true)).printed fuel source
  globals : ((s.onSink (.flushing false)).run fuel source).2.machine.globalNames =
    ((s.onSink (.flushing true)).run fuel source).2.machine.globalNames

/-- What a sink has taken and the global names do not depend on whether it can be flushed. -/
theorem Unflushed.of_session
    (finished : ((s.onSink (.flushing true)).run fuel source).1 = .finished →
      ((s.onSink (.flushing false)).run fuel source).1 =
        .failed (.output (.flushRefused s.machine.sink.flushText)))
    (stopped : ((s.onSink (.flushing true)).run fuel source).1 ≠ .finished →
      ((s.onSink (.flushing false)).run fuel source).1 =
        ((s.onSink (.flushing true)).run fuel source).1)
    (session : ((s.onSink (.flushing false)).run fuel source).2 =
      ((s.onSink (.flushing true)).run fuel source).2.onSink (.flushing false)) :
    s.Unflushed fuel source where
  finished := finished
  stopped := stopped
  session := session
  printed := by
    rw [Session.printed, Session.printed, session]
    generalize (s.onSink (.flushing true)).run fuel source = ended
    rfl
  globals := by
    rw [session]
    generalize (s.onSink (.flushing true)).run fuel source = ended
    rfl

/-- A program on a sink that can or cannot be flushed. -/
theorem interpret_flushing (fuel : Nat) (program : List Stmt) (flushable : Bool) (m : Machine) :
    interpret fuel program (m.onSink (.flushing flushable)) =
      match runProgram fuel program m with
      | .error stop m => .error stop (m.onSink (.flushing flushable))
      | .ok _ m =>
        if flushable then .ok () (m.onSink (.flushing flushable))
        else .error (.output (.flushRefused m.sink.flushText)) (m.onSink (.flushing flushable)) := by
  have moved := (Traced.flushing_closed flushable).runProgram fuel program m
  simp only [interpret, Bind.bind, EStateM.bind, moved]
  cases runProgram fuel program m <;> rfl

theorem since_of_append {k before : Sink} {more : ByteArray}
    (grown : k.written = before.written ++ more) : k.since before = more := by
  rw [Sink.since, grown, ByteArray.size_append, ByteArray.extract_append_eq_right rfl rfl]

theorem since_self (k : Sink) : k.since k = .empty := since_of_append ByteArray.append_empty.symm

section
variable {errors : List Diagnostic} {next : ExprId}
  (rejected : checkSource s.machine.globalNames s.nextId source = (.error errors, next))
include rejected

/-- An input that is not run prints nothing. -/
theorem printed_of_rejected : s.printed fuel source = .empty := by
  rw [printed, run_of_errors rejected]
  exact since_self _

theorem truncated_of_rejected : s.Truncated fuel source n := by
  have all : s.withAllRoom.printed fuel source = .empty := printed_of_rejected rejected
  have less : (s.withRoom n).printed fuel source = .empty := printed_of_rejected rejected
  refine ⟨?_, fun _ => ?_, fun exceeds => ?_⟩
  · rw [less, all, extract_zero_min]
    exact (ByteArray.extract_eq_empty_iff.mpr (Nat.min_le_right _ _)).symm
  · have free : s.withAllRoom.run fuel source = _ := run_of_errors rejected
    have bound : (s.withRoom n).run fuel source = _ := run_of_errors rejected
    rw [bound, free]
    rfl
  · rw [all] at exceeds
    contradiction

theorem unflushed_of_rejected : s.Unflushed fuel source := by
  have works : (s.onSink (.flushing true)).run fuel source = _ := run_of_errors rejected
  have refuses : (s.onSink (.flushing false)).run fuel source = _ := run_of_errors rejected
  refine .of_session (fun finished => ?_) (fun _ => ?_) ?_
  · rw [works] at finished
    contradiction
  · rw [works, refuses]
  · rw [works, refuses]
    rfl

end

section
variable {checked : Checked} {next : ExprId}
  (passed : checkSource s.machine.globalNames s.nextId source = (.ok checked, next))
include passed

theorem truncated_of_passed : s.Truncated fuel source n := by
  have free : s.withAllRoom.run fuel source = _ := run_of_checked passed
  have bound : (s.withRoom n).run fuel source = _ := run_of_checked passed
  have told : s.withAllRoom.trace fuel source = _ := trace_of_checked passed
  have toldShort : (s.withRoom n).trace fuel source = _ := trace_of_checked passed
  obtain ⟨more, sink, cut⟩ := Traced.Truncates.interpret fuel checked.program
    (s.withAllRoom.machine.note checked.entries) (s.machine.sink.written.size + n) rfl
    (Nat.le_add_right _ _)
  rw [Traced.faithful.programs] at sink cut
  have limited : (s.withAllRoom.machine.note checked.entries).onSink
      (.limited (s.machine.sink.written.size + n)) =
    (s.withRoom n).machine.note checked.entries := rfl
  rw [limited, ← told, ← toldShort] at cut
  have all : s.withAllRoom.printed fuel source = more := by
    rw [printed, free]
    exact since_of_append (congrArg Sink.written sink)
  have size : (s.machine.sink.written ++ more).size = s.machine.sink.written.size + more.size :=
    ByteArray.size_append
  generalize interpret fuel checked.program ((s.withRoom n).machine.note checked.entries) = r
    at bound cut
  generalize toldMoments : (s.withRoom n).trace fuel source = ms at cut
  cases cut with
  | whole fits =>
    have fits : more.size ≤ n := by
      have : (s.machine.sink.written ++ more).size ≤ s.machine.sink.written.size + n := fits
      omega
    have same : (s.withRoom n).run fuel source = ((s.withAllRoom.run fuel source).1,
        (s.withAllRoom.run fuel source).2.onSink
          (.limited (s.machine.sink.written.size + n))) := by
      rw [bound, free, machineBehind_onMachineBehind]
      cases interpret fuel checked.program (s.withAllRoom.machine.note checked.entries) <;> rfl
    refine ⟨?_, fun _ => same, fun exceeds => ?_⟩
    · rw [all, Nat.min_eq_right fits, ByteArray.extract_zero_size, ← all, printed, same, printed]
      generalize s.withAllRoom.run fuel source = ended
      rfl
    · rw [all] at exceeds
      omega
  | short front v m rest exceeds split fits last =>
    have exceeds : n < more.size := by
      have : s.machine.sink.written.size + n < (s.machine.sink.written ++ more).size := exceeds
      omega
    have kept : (s.machine.sink.written ++ more).extract 0 (s.machine.sink.written.size + n) =
        s.machine.sink.written ++ more.extract 0 n := by
      rw [extract_append_of_ge (Nat.le_add_right _ _), Nat.add_sub_cancel_left]
    refine ⟨?_, fun fits => ?_, fun _ => ?_⟩
    · rw [printed, bound, all, extract_zero_min]
      exact since_of_append kept
    · rw [all] at fits
      omega
    · exact ⟨_, front, v, m, rest, bound, split, toldMoments, rfl⟩

theorem unflushed_of_passed : s.Unflushed fuel source := by
  have works : (s.onSink (.flushing true)).run fuel source = _ := run_of_checked passed
  have refuses : (s.onSink (.flushing false)).run fuel source = _ := run_of_checked passed
  have noted : ∀ flushable, (s.onSink (.flushing flushable)).machine.note checked.entries =
    (s.machine.note checked.entries).onSink (.flushing flushable) := fun _ => rfl
  have texts := runProgram_flushText fuel checked.program (s.machine.note checked.entries)
  rw [noted, interpret_flushing] at works refuses
  cases ran : runProgram fuel checked.program (s.machine.note checked.entries) with
  | ok _ m =>
    rw [ran] at works refuses texts
    have text : m.sink.flushText = s.machine.sink.flushText := texts
    have refused : ((s.onSink (.flushing false)).run fuel source).1 =
        .failed (.output (.flushRefused s.machine.sink.flushText)) := by
      rw [← text]
      exact congrArg Prod.fst refuses
    refine .of_session (fun _ => refused) (fun stopped => ?_) ?_
    · rw [works] at stopped
      contradiction
    · rw [works, refuses]
      rfl
  | error stop m =>
    rw [ran] at works refuses
    refine .of_session (fun finished => ?_) (fun _ => ?_) ?_
    · rw [works] at finished
      cases stop <;> contradiction
    · rw [works, refuses]
      rfl
    · rw [works, refuses]
      rfl

end

theorem truncated (fuel : Nat) (s : Session) (source : String) (n : Nat) :
    s.Truncated fuel source n := by
  rcases checked : checkSource s.machine.globalNames s.nextId source with ⟨errors | checked, next⟩
  · exact truncated_of_rejected checked
  · exact truncated_of_passed (by assumption)

theorem unflushed (fuel : Nat) (s : Session) (source : String) : s.Unflushed fuel source := by
  rcases checked : checkSource s.machine.globalNames s.nextId source with ⟨errors | checked, next⟩
  · exact unflushed_of_rejected checked
  · exact unflushed_of_passed (by assumption)

end Session

/-- The sink decides nothing but where a run stops. With room for `n` bytes a run does what it does
with all the room, up to the first print that does not fit, and keeps the first `n` bytes of the
output. A sink that cannot be flushed turns a finished run into a failed one and changes nothing
else. What is reported is the sink's own text, whatever it is. -/
theorem sinks_only_truncate (s : Session) (fuel : Nat) (source : String) :
    Traced.Faithful ∧ (∀ n, s.Truncated fuel source n) ∧ s.Unflushed fuel source ∧
      (∀ text, (Diagnostic.output (.full text)).text = "I/O error: " ++ text ∧
        (Diagnostic.output (.flushRefused text)).text = "I/O error: " ++ text) ∧
      ∀ e, (Outcome.failed (.output e)).exitCode = 74 :=
  ⟨Traced.faithful, Session.truncated fuel s source, Session.unflushed fuel s source,
    fun _ => ⟨rfl, rfl⟩, fun _ => rfl⟩

/-- The second value that a function prints does not fit: the first byte of its line is kept, and
the call and what follows it are over. The sink says why. -/
theorem call_stops_at_full_sink :
    let s := Session.start { fullText := "disk full" } ⟨fun _ => 0, 0⟩
    let source := "fun f(){print 1;print 2;}f();print 3;"
    (s.withRoom 3).printed 9 source = "1\n2".toUTF8 ∧
      ∃ t, (s.withRoom 3).run 9 source = (.failed (.output (.full "disk full")), t) := by
  intro s source
  have all : s.withAllRoom.printed 9 source = "1\n2\n3\n".toUTF8 := by decide +kernel
  have truncated := (sinks_only_truncate s 9 source).2.1 3
  constructor
  · rw [truncated.output, all]
    decide +kernel
  · have exceeds : 3 < (s.withAllRoom.printed 9 source).size := by
      rw [all]
      decide +kernel
    obtain ⟨t, _, _, _, _, stopped, _⟩ := truncated.overflows exceeds
    exact ⟨t, stopped⟩

end ScopeScript
