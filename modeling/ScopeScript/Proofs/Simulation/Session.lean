import ScopeScript.Proofs.Checks
import ScopeScript.Proofs.Lexical.Moved
import ScopeScript.Proofs.Scope.Relabel
import ScopeScript.Proofs.Simulation.Evaluate

/-! The two sessions side by side. After every history they have mirrored machines, and what is
noted for the one is exactly what its code so far needs. -/
namespace ScopeScript
open World

/-- Two sessions that are the same to every input. Nothing is noted yet for the numbers that are
still to be handed out. -/
structure Session.Mirrors (s : Session) (t : Lexical.Session) : Prop where
  nextId : t.nextId = s.nextId
  unused : ∀ id, s.nextId ≤ id → s.machine.distances.get? id = none
  world : ∃ w : World, w.Mirrors s.machine t.machine ∧ w.notes.limit = s.nextId

variable {w : World} {opened : Option FrameId} {m : Machine} {l : Lexical.Machine}
  {s : Session} {t : Lexical.Session}

theorem World.Mirrors.globalNames_eq (mirrors : w.Mirrors m l) :
    l.globalNames = m.globalNames := by
  rw [Lexical.Machine.globalNames, Machine.globalNames, Table.sortedNames, Table.sortedNames,
    mirrors.globals.names_eq]

theorem World.Mirrors.mem_globalNames (mirrors : w.Mirrors m l) (x : String) :
    x ∈ w.globals ↔ x ∈ m.globalNames := by
  rw [Machine.globalNames, Table.sortedNames, List.mem_mergeSort, mirrors.globals.names_eq,
    mirrors.names]

theorem World.Mirrors.withNotes (mirrors : w.Mirrors m l) {notes : Notes}
    (later : notes.Extends w.notes) :
    (w.withNotes notes).Mirrors { m with distances := notes.distances } l := by
  have grown := grows_withNotes later
  exact { mirrors with
    cell := fun _ _ _ located => mirrors.cell_mono grown located
    globals := mirrors.globals_mono grown
    objects := mirrors.objects_mono grown
    distances := rfl }

namespace Session.Mirrors

/-- The session behind an input that only used up numbers. -/
theorem skip (mirrors : s.Mirrors t) {next : ExprId} (counts : s.nextId ≤ next) :
    Session.Mirrors { s with nextId := next } { t with nextId := next } := by
  obtain ⟨nextId, unused, w, machines, limit⟩ := mirrors
  have later : Notes.Extends ⟨s.machine.distances, next⟩ w.notes :=
    ⟨limit ▸ counts, fun id _ => by rw [machines.distances]⟩
  exact ⟨rfl, fun id above => unused id (Nat.le_trans counts above),
    w.withNotes _, machines.withNotes later, rfl⟩

/-- A program that passes the checks agrees with the notes once its distances are noted. -/
theorem passed (mirrors : s.Mirrors t) {source : String} {checked : Checked} {next : ExprId}
    (passes : checkSource s.machine.globalNames s.nextId source = (.ok checked, next)) :
    ∃ w : World, w.Mirrors (s.machine.note checked.entries) t.machine ∧ w.notes.limit = next ∧
      w.Current ⟨[], s.machine.globalNames⟩ globalFrame .top ∧
      Stmt.ScopedEach w.notes { scopes := ⟨[], s.machine.globalNames⟩ } checked.program ∧
      ∀ id, next ≤ id → (s.machine.note checked.entries).distances.get? id = none := by
  obtain ⟨_, unused, w, machines, limit⟩ := mirrors
  obtain ⟨following, agrees, unused'⟩ := checkSource_noted passes unused
  have later : Notes.Extends ⟨s.machine.distances.note checked.entries, next⟩ w.notes := by
    obtain ⟨counts, same⟩ := following
    refine ⟨limit ▸ counts, fun id below => ?_⟩
    rw [← machines.distances]
    exact same id (limit ▸ below)
  exact ⟨w.withNotes _, machines.withNotes later, rfl, .top machines.mem_globalNames, agrees, unused'⟩

/-- The session behind a run. -/
theorem behind {m' : Machine} {l' : Lexical.Machine} {w' : World} {next : ExprId}
    (machines : w.Mirrors m l) (limit : w.notes.limit = next)
    (unused : ∀ id, next ≤ id → m.distances.get? id = none)
    (reached : w.Reaches (some globalFrame) w') (machines' : w'.Mirrors m' l') :
    Session.Mirrors ⟨m', next⟩ ⟨l', next⟩ := by
  have kept : m'.distances = m.distances := by
    rw [machines'.distances, reached.notes, machines.distances]
  refine ⟨rfl, fun id above => ?_, w', machines', by rw [reached.notes, limit]⟩
  rw [kept]
  exact unused id above

end Session.Mirrors

theorem World.Mirrors.sink_extends {m' : Machine} {l' : Lexical.Machine} {w' : World}
    (machines : w.Mirrors m l) (reached : w.Reaches opened w') (machines' : w'.Mirrors m' l') :
    m'.sink.Extends m.sink := by
  rw [machines.sink, machines.output, machines'.sink, machines'.output]
  exact reached.grows.sink

theorem Session.Mirrors.globalNames_eq (mirrors : s.Mirrors t) :
    t.machine.globalNames = s.machine.globalNames := by
  obtain ⟨w, machines, _⟩ := mirrors.world
  exact machines.globalNames_eq

/-- A run on mirrored sessions ends alike, not in a fault, and leaves mirrored sessions. What was
printed before stays printed. -/
theorem Session.Mirrors.run (mirrors : s.Mirrors t) (fuel : Nat) (source : String) :
    (s.run fuel source).1 = (t.run fuel source).1 ∧
      (∀ fault, (s.run fuel source).1 ≠ .faulted fault) ∧
      (s.run fuel source).2.machine.sink.Extends s.machine.sink ∧
      (s.run fuel source).2.Mirrors (t.run fuel source).2 := by
  have counts := checkSource_nextId s.machine.globalNames s.nextId source
  unfold Session.run Lexical.Session.run Session.check
  rw [mirrors.globalNames_eq, mirrors.nextId]
  cases found : checkSource s.machine.globalNames s.nextId source with
  | mk result next =>
    rw [found] at counts
    cases result with
    | error errors => exact ⟨rfl, fun _ => Outcome.noConfusion, .refl _, mirrors.skip counts⟩
    | ok checked =>
      obtain ⟨w, machines, limit, current, agrees, unused⟩ := mirrors.passed found
      have met := Sim.interpret fuel current agrees _ _ machines
      dsimp only
      cases left : interpret fuel checked.program (s.machine.note checked.entries) with
      | ok _ m =>
        cases right : Lexical.interpret fuel checked.program t.machine with
        | error _ _ => simp [left, right, Meets] at met
        | ok _ l =>
          simp only [left, right, Meets] at met
          obtain ⟨w', reached, machines', _⟩ := met
          exact ⟨rfl, fun _ => Outcome.noConfusion, machines.sink_extends reached machines',
            .behind machines limit unused reached machines'⟩
      | error stop m =>
        cases right : Lexical.interpret fuel checked.program t.machine with
        | ok _ _ => simp [left, right, Meets] at met
        | error other l =>
          simp only [left, right, Meets] at met
          obtain ⟨rfl, noFault, w', reached, machines'⟩ := met
          refine ⟨rfl, fun fault faulted => ?_, machines.sink_extends reached machines',
            .behind machines limit unused reached machines'⟩
          cases stop with
          | fault f => exact noFault f rfl
          | error _ | output _ | exhausted => cases faulted

/-- A program that ran through ended at the top level, and the global names that its text declares
are those that are there now. -/
theorem Session.Mirrors.ran_through (mirrors : s.Mirrors t) {fuel : Nat} {source : String}
    {checked : Checked} {next : ExprId}
    (passes : checkSource s.machine.globalNames s.nextId source = (.ok checked, next))
    (ran : Lexical.interpret fuel checked.program t.machine = .ok () l) :
    Lexical.Eval.runEach (Lexical.execute fuel) .top checked.program t.machine =
        .ok (.normal .top) l ∧
      Scopes.Alike ⟨[], l.globalNames⟩
        (checked.program.foldl Scopes.after ⟨[], s.machine.globalNames⟩) := by
  obtain ⟨w, machines, _, current, agrees, _⟩ := mirrors.passed passes
  obtain ⟨flow, right⟩ := Lexical.runEach_of_interpret ran
  have met := Sim.topLevel fuel current agrees _ _ machines
  rw [right] at met ⊢
  cases left : runProgram fuel checked.program (s.machine.note checked.entries) with
  | error _ _ => simp [left, Meets] at met
  | ok _ m =>
    simp only [left, Meets] at met
    obtain ⟨w', _, machines', rfl, behind⟩ := met
    obtain ⟨locals, globals⟩ := behind.of_top
    refine ⟨rfl, locals, fun x => ?_⟩
    rw [← globals, machines'.mem_globalNames, machines'.globalNames_eq]

theorem Session.Mirrors.sink_eq (mirrors : s.Mirrors t) : s.machine.sink = t.machine.sink := by
  obtain ⟨w, machines, _⟩ := mirrors.world
  exact machines.sink

/-- One input of any kind. -/
theorem Session.Mirrors.answer (mirrors : s.Mirrors t) (input : Input) :
    (s.answer input).1 = (t.answer input).1 ∧
      (∀ report, (s.answer input).1 = some report → ∀ fault, report.outcome ≠ .faulted fault) ∧
      (s.answer input).2.Mirrors (t.answer input).2 := by
  cases input with
  | run fuel source =>
    obtain ⟨outcome, noFault, _, behind⟩ := mirrors.run fuel source
    rw [Session.answer_run, Lexical.Session.answer_run, outcome, mirrors.sink_eq, behind.sink_eq]
    rw [outcome] at noFault
    refine ⟨rfl, ?_, behind⟩
    rintro _ ⟨⟩
    exact noFault
  | parse source =>
    have skipped := mirrors.skip (parseSource_nextId s.nextId source)
    simp only [Session.answer, Session.parse, Lexical.Session.answer, mirrors.nextId]
    refine ⟨trivial, ?_, skipped⟩
    rintro report ⟨⟩

/-- A whole history. -/
theorem Session.Mirrors.reports (mirrors : s.Mirrors t) (inputs : List Input) :
    s.reports inputs = t.reports inputs ∧
      ∀ report ∈ s.reports inputs, ∀ fault, report.outcome ≠ .faulted fault := by
  induction inputs generalizing s t with
  | nil => exact ⟨rfl, nofun⟩
  | cons input rest ih =>
    obtain ⟨same, noFault, behind⟩ := mirrors.answer input
    obtain ⟨others, clean⟩ := ih behind
    constructor
    · simp only [Session.reports, Lexical.Session.reports, same, others]
    · intro report member
      rcases List.mem_append.mp member with here | later
      · exact noFault report (Option.mem_toList.mp here)
      · exact clean report later

theorem Session.Mirrors.after (mirrors : s.Mirrors t) (inputs : List Input) :
    (s.after inputs).Mirrors (t.after inputs) := by
  induction inputs generalizing s t with
  | nil => exact mirrors
  | cons input rest ih => exact ih (mirrors.answer input).2.2

/-- Only the native functions are there at the start. -/
def World.start (sink : Sink) : World where
  size := 1
  parent _ := none
  place _ _ := none
  globals := [Native.clock.name]
  notes := ⟨{}, 0⟩
  sink := sink
  size_pos := Nat.one_pos
  parent_global := rfl
  place_global _ := rfl
  place_lt := nofun
  place_inj := nofun

theorem Session.start_mirrors (sink : Sink) (clock : Clock) :
    (Session.start sink clock).Mirrors (Lexical.Session.start sink clock) := by
  have frame (f : FrameId) : ((Machine.start sink clock).store.frame f).enclosing = none := by
    rw [Machine.start, Store.frame_add]
    split <;> rfl
  have empty (id : ExprId) : (Machine.start sink clock).distances.get? id = none := rfl
  refine ⟨rfl, fun id _ => empty id, World.start sink, ?_, rfl⟩
  exact {
    size := rfl
    parent := frame
    cell := nofun
    placed := fun f x v inner bound => by
      rw [Session.start, Machine.start, Store.frame_add] at bound
      split at bound
      · next first => exact absurd first inner
      · contradiction
    globals := .ofList (.cons ⟨rfl, .callable (.native .clock)⟩ .nil)
    names := rfl
    objects := fun _ => .none
    distances := rfl
    sink := rfl
    output := rfl
    clock := rfl }

end ScopeScript
