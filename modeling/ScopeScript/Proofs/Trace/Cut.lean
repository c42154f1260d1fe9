import ScopeScript.Proofs.Trace.Session

/-! Runs with another sink. Nothing but printing and the flush at the end looks at the sink, so a
run with less room for its output does what it does with all the room, up to the first value that
does not fit. -/
namespace ScopeScript

variable {α β : Type}

/-! The first bytes of some bytes. -/

theorem extract_zero_min (bytes : ByteArray) (n : Nat) :
    bytes.extract 0 (min n bytes.size) = bytes.extract 0 n := by
  have clipped : (bytes.extract 0 bytes.size).extract 0 n = _ := ByteArray.extract_extract
  rw [ByteArray.extract_zero_size, Nat.zero_add, Nat.zero_add] at clipped
  exact clipped.symm

theorem extract_append_of_le {a b : ByteArray} {n : Nat} (short : n ≤ a.size) :
    (a ++ b).extract 0 n = a.extract 0 n := by
  have rest : b.extract (0 - a.size) (n - a.size) = .empty := by
    rw [ByteArray.extract_eq_empty_iff]
    omega
  rw [ByteArray.extract_append, rest, ByteArray.append_empty]

theorem extract_append_of_ge {a b : ByteArray} {n : Nat} (long : a.size ≤ n) :
    (a ++ b).extract 0 n = a ++ b.extract 0 (n - a.size) := by
  have whole : a.extract 0 n = a := by
    rw [← extract_zero_min, Nat.min_eq_right long, ByteArray.extract_zero_size]
  rw [ByteArray.extract_append, whole, Nat.zero_sub]

namespace Sink

/-- A sink that takes everything. -/
def unlimited (s : Sink) : Sink := { s with capacity := none }

/-- A sink that takes `limit` bytes in all. -/
def limited (limit : Nat) (s : Sink) : Sink := { s with capacity := some limit }

def flushing (flushable : Bool) (s : Sink) : Sink := { s with flushable }

def holding (bytes : ByteArray) (s : Sink) : Sink := { s with written := bytes }

theorem write_of_unlimited {s : Sink} (free : s.capacity = none) (bytes : ByteArray) :
    s.write bytes = s.holding (s.written ++ bytes) := by
  simp only [write, room, free, Option.elim_none, ByteArray.extract_zero_size]
  rw [holding, free]

/-- A sink with a limit keeps as much of the output as it has room for. -/
theorem write_limited {s : Sink} {limit : Nat} (taken : s.written.size ≤ limit)
    (bytes : ByteArray) :
    (s.limited limit).write bytes =
      (s.holding ((s.written ++ bytes).extract 0 limit)).limited limit := by
  have kept := extract_zero_min bytes (limit - s.written.size)
  rw [extract_append_of_ge taken, ← kept, Nat.min_comm]
  rfl

theorem room_limited_eq_size {s : Sink} {limit size : Nat} :
    (s.limited limit).room size = size ↔ size ≤ limit - s.written.size := by
  simp only [room, limited, Option.elim_some]
  omega

end Sink

/-- What printing a value writes. -/
def Value.line (v : Value) (objects : Array Object) : ByteArray := (v.text objects ++ "\n").toUTF8

def Machine.onSink (change : Sink → Sink) (m : Machine) : Machine := m.withSink (change m.sink)

def Moment.onSink (change : Sink → Sink) (moment : Moment) : Moment :=
  ⟨moment.act, moment.machine.onSink change⟩

/-- A step that does not look at what is changed of the sink. -/
def Heedless (change : Sink → Sink) (p : Eval α) : Prop :=
  ∀ m, p (m.onSink change) = onMachineBehind (·.onSink change) (p m)

theorem Blind.heedless {p : Eval α} (blind : Blind p) (change : Sink → Sink) :
    Heedless change p := by
  intro m
  have kept := blind.sink m
  rw [Machine.onSink, blind m]
  cases ran : p m with
  | ok a m' | error stop m' =>
    rw [ran] at kept
    simp only [onMachineBehind, Machine.onSink, ← kept]
    rfl

theorem Heedless.bind {change : Sink → Sink} {p : Eval α} {q : α → Eval β}
    (first : Heedless change p) (next : ∀ a, Heedless change (q a)) :
    Heedless change (p >>= q) := by
  intro m
  simp only [Bind.bind, EStateM.bind, first m]
  cases p m with
  | ok a m' => exact next a m'
  | error stop m' => rfl

theorem Eval.print_eq (v : Value) (m : Machine) :
    Eval.print v m =
      if m.sink.room (v.line m.objects).size = (v.line m.objects).size then
        .ok () (m.onSink (·.write (v.line m.objects)))
      else .error (.output (.full m.sink.fullText)) (m.onSink (·.write (v.line m.objects))) := rfl

namespace Traced

/-- Whether flushing works does not matter before the flush. -/
theorem flushing_closed (flushable : Bool) :
    Closed fun _ q => Heedless (Sink.flushing flushable) q where
  plain plain := plain.sink.heedless _
  print v m := by
    have room : ∀ size, (m.onSink (.flushing flushable)).sink.room size = m.sink.room size :=
      fun _ => rfl
    have objects : (m.onSink (.flushing flushable)).objects = m.objects := rfl
    have text : (m.onSink (.flushing flushable)).sink.fullText = m.sink.fullText := rfl
    simp only [Eval.print_eq, room, objects, text]
    split <;> rfl
  setField _ _ _ _ := rfl
  bind := Heedless.bind
  mark _ heedless := heedless

/-- What becomes of the moments and the result of a step if its output is cut off behind `limit`
bytes: nothing, or the step stops at the first value that does not fit, with the sink's `text`. -/
inductive Cut (limit : Nat) (text : String) (output : ByteArray) (moments : List Moment)
    (result : EStateM.Result Stop Machine α) :
    List Moment → EStateM.Result Stop Machine α → Prop where
  | whole : output.size ≤ limit →
    Cut limit text output moments result (moments.map (·.onSink (.limited limit)))
      (onMachineBehind (·.onSink (.limited limit)) result)
  | short (front : List Moment) (v : Value) (m : Machine) (rest : List Moment) :
    limit < output.size → moments = front ++ ⟨.print v, m⟩ :: rest →
    m.sink.written.size ≤ limit → limit < (m.sink.written ++ v.line m.objects).size →
    Cut limit text output moments result
      ((front ++ [Moment.mk (.print v) m]).map (·.onSink (.limited limit)))
      (.error (.output (.full text))
        (m.onSink fun sink => (sink.holding (output.extract 0 limit)).limited limit))

/-- A step with all the room adds to the output, and a limit only cuts it off. -/
def Truncates (p : Traced α) : Prop :=
  ∀ (m : Machine) (limit : Nat), m.sink.capacity = none → m.sink.written.size ≤ limit →
    ∃ more, (machineBehind (p.step m)).sink = m.sink.holding (m.sink.written ++ more) ∧
      Cut limit m.sink.fullText (m.sink.written ++ more) (p.moments m) (p.step m)
        (p.moments (m.onSink (.limited limit))) (p.step (m.onSink (.limited limit)))

namespace Truncates

/-- A step that leaves the sink alone. -/
theorem of_kept {p : Traced α} (kept : ∀ m, (machineBehind (p.step m)).sink = m.sink)
    (heedless : ∀ limit, Heedless (.limited limit) p.step)
    (told : ∀ m change, p.moments (m.onSink change) = (p.moments m).map (·.onSink change)) :
    Truncates p := by
  intro m limit free taken
  refine ⟨.empty, ?_, ?_⟩
  · rw [ByteArray.append_empty]
    exact kept m
  · rw [ByteArray.append_empty, heedless limit m, told]
    exact .whole taken

theorem plain {p : Eval α} (plain : Plain p) : Truncates (lift p) :=
  of_kept plain.sink.sink (fun _ => plain.sink.heedless _) fun _ _ => rfl

theorem mark (act : Act) : Truncates (mark act) :=
  of_kept (fun _ => rfl) (fun _ _ => rfl) fun _ _ => rfl

theorem flush : Truncates (Traced.lift Eval.flush) := by
  apply of_kept
  · intro m
    simp only [Traced.lift, Eval.flush]
    split <;> rfl
  · intro limit m
    have same : (m.onSink (.limited limit)).sink.flushable = m.sink.flushable := rfl
    simp only [Traced.lift, Eval.flush, same]
    split <;> rfl
  · exact fun _ _ => rfl

theorem print (v : Value) : Truncates (print v) := by
  intro m limit free taken
  have told : ∀ m, (Traced.print v).moments m = [⟨.print v, m⟩] := fun _ => rfl
  have ran : ∀ m, (Traced.print v).step m = Eval.print v m := fun _ => rfl
  have wrote : Eval.print v m =
      .ok () (m.onSink (·.holding (m.sink.written ++ v.line m.objects))) := by
    have room : m.sink.room (v.line m.objects).size = (v.line m.objects).size := by
      rw [Sink.room, free, Option.elim_none]
    rw [Eval.print_eq, if_pos room, Machine.onSink, Sink.write_of_unlimited free]
    rfl
  refine ⟨v.line m.objects, by rw [ran, wrote]; rfl, ?_⟩
  rw [told, told, ran, ran, wrote, Eval.print_eq]
  have kept := Sink.write_limited taken (v.line m.objects)
  have behind : (m.onSink (.limited limit)).onSink (·.write (v.line m.objects)) =
      m.onSink fun sink =>
        (sink.holding ((m.sink.written ++ v.line m.objects).extract 0 limit)).limited limit :=
    congrArg m.withSink kept
  have objects : (m.onSink (.limited limit)).objects = m.objects := rfl
  have sink : (m.onSink (.limited limit)).sink = m.sink.limited limit := rfl
  have size := ByteArray.size_append (a := m.sink.written) (b := v.line m.objects)
  by_cases fits : (v.line m.objects).size ≤ limit - m.sink.written.size
  · have all : (m.sink.written ++ v.line m.objects).extract 0 limit =
        m.sink.written ++ v.line m.objects := by
      rw [← extract_zero_min, Nat.min_eq_right (by omega), ByteArray.extract_zero_size]
    rw [objects, sink, if_pos (Sink.room_limited_eq_size.mpr fits), behind, all]
    exact .whole (by omega)
  · rw [objects, sink, if_neg (mt Sink.room_limited_eq_size.mp fits), behind]
    exact .short [] v m [] (by omega) rfl taken (by omega)

theorem bind {p : Traced α} {f : α → Traced β} (first : Truncates p)
    (next : ∀ a, Truncates (f a)) : Truncates (p >>= f) := by
  intro m limit free taken
  obtain ⟨more, sink, cut⟩ := first m limit free taken
  simp only [moments_bind, step_bind]
  generalize p.moments (m.onSink (.limited limit)) = told at cut
  generalize p.step (m.onSink (.limited limit)) = there at cut
  cases ran : p.step m with
  | error stop m' =>
    rw [ran] at sink cut
    refine ⟨more, sink, ?_⟩
    simp only [List.append_nil]
    cases cut with
    | whole fits =>
      simp only [onMachineBehind, List.append_nil]
      exact .whole fits
    | short front v at' rest exceeds split fits last =>
      simp only [List.append_nil]
      exact .short front v at' rest exceeds split fits last
  | ok a m' =>
    rw [ran] at sink cut
    have sink : m'.sink = m.sink.holding (m.sink.written ++ more) := sink
    have free' : m'.sink.capacity = none := by rw [sink]; exact free
    have written : m'.sink.written = m.sink.written ++ more := by rw [sink]; rfl
    have text : m'.sink.fullText = m.sink.fullText := by rw [sink]; rfl
    -- what the second step adds stands behind what the first one has added
    have added {more'} (grown : (machineBehind ((f a).step m')).sink =
        m'.sink.holding (m'.sink.written ++ more')) :
        (machineBehind ((f a).step m')).sink =
          m.sink.holding (m.sink.written ++ (more ++ more')) := by
      rw [grown, written, sink, ByteArray.append_assoc]
      rfl
    cases cut with
    | whole fits =>
      obtain ⟨more', grown, cut⟩ := next a m' limit free' (by rw [written]; exact fits)
      refine ⟨more ++ more', added grown, ?_⟩
      rw [written, text, ByteArray.append_assoc] at cut
      simp only [onMachineBehind]
      generalize (f a).moments (m'.onSink (.limited limit)) = told at cut
      generalize (f a).step (m'.onSink (.limited limit)) = there at cut
      cases cut with
      | whole fits =>
        rw [← List.map_append]
        exact .whole fits
      | short front v at' rest exceeds split fits last =>
        rw [← List.map_append, ← List.append_assoc]
        refine .short (p.moments m ++ front) v at' rest exceeds ?_ fits last
        rw [split, List.append_assoc]
    | short front v at' rest exceeds split fits last =>
      obtain ⟨more', grown, _⟩ := next a m' m'.sink.written.size free' (Nat.le_refl _)
      refine ⟨more ++ more', added grown, ?_⟩
      have longer : limit < (m.sink.written ++ (more ++ more')).size := by
        rw [← ByteArray.append_assoc, ByteArray.size_append]
        omega
      have same := extract_append_of_le (b := more') (Nat.le_of_lt exceeds)
      rw [ByteArray.append_assoc] at same
      simp only [List.append_nil]
      rw [← same]
      refine .short front v at' (rest ++ (f a).moments m') longer ?_ fits last
      rw [split, List.append_assoc, List.cons_append]

theorem closed : Closed fun p _ => Truncates p where
  plain := plain
  print := print
  setField _ _ _ := bind (mark _) fun _ =>
    of_kept (fun _ => rfl) (fun _ _ => rfl) fun _ _ => rfl
  bind first next := bind first next
  mark _ truncates := bind (mark _) fun _ => truncates

theorem interpret (fuel : Nat) (program : List Stmt) : Truncates (interpret fuel program) :=
  bind (closed.runProgram fuel program) fun _ => flush

end Truncates
end Traced
end ScopeScript
