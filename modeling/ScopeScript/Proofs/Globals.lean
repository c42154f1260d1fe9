import ScopeScript.Proofs.Checks
import ScopeScript.Proofs.Frames.Names
import ScopeScript.Proofs.Trace.Session

/-! The global names. A run adds the names that its program declares at the top level, one
statement after the other, up to the statement that stops it. A class binds its name before its
superclass is looked up, so its name stays even if that fails. -/
namespace ScopeScript

/-- The name that a statement declares in the frame it runs in. -/
def Stmt.declared? : Stmt → Option String
  | .var name _ | .classDecl name _ _ => some name.text
  | .function declaration => some declaration.name.text
  | _ => none

def Stmt.isClass : Stmt → Bool
  | .classDecl _ _ _ => true
  | _ => false

/-- The names that a program declares at its top level. -/
def declaredNames (program : List Stmt) : List String := program.filterMap Stmt.declared?

/-- What a statement has declared if it stops with an error. -/
def Stmt.declaredEarly (s : Stmt) : List String := if s.isClass then s.declared?.toList else []

/-- The global names behind a step are those before it and some others. -/
structure Machine.Gains (m m' : Machine) (names : List String) : Prop where
  frames : m.store.frames.size ≤ m'.store.frames.size
  names : ∀ x, x ∈ m'.globalNames ↔ x ∈ m.globalNames ∨ x ∈ names

variable {m m' : Machine} {names : List String}

theorem Machine.mem_globalNames (m : Machine) (x : String) :
    x ∈ m.globalNames ↔ x ∈ (m.store.frame globalFrame).bindings.names := by
  rw [Machine.globalNames, Table.sortedNames, List.mem_mergeSort]

namespace Machine.Gains

theorem trans {m'' : Machine} {others : List String} (first : m.Gains m' names)
    (second : m'.Gains m'' others) : m.Gains m'' (names ++ others) where
  frames := Nat.le_trans first.frames second.frames
  names x := by rw [second.names, first.names, List.mem_append, or_assoc]

theorem same (gains : m.Gains m' names) {others : List String}
    (alike : ∀ x, x ∈ names ↔ x ∈ others) : m.Gains m' others where
  frames := gains.frames
  names x := by rw [gains.names, alike]

theorem of_leaves (leaves : m.Leaves none m') (nonempty : 0 < m.store.frames.size) :
    m.Gains m' [] where
  frames := leaves.frames
  names x := by
    rw [Machine.mem_globalNames, Machine.mem_globalNames, leaves.names globalFrame nonempty nofun]
    simp

theorem define (nonempty : 0 < m.store.frames.size) (name : String) (v : Value) :
    m.Gains { m with store := m.store.define globalFrame name v } [name] where
  frames := Nat.le_of_eq (Store.size_define _ _ _ _).symm
  names x := by
    have inside : globalFrame < m.store.frames.size := nonempty
    rw [Machine.mem_globalNames, Machine.mem_globalNames]
    dsimp only
    rw [Store.frame_define _ inside, if_pos rfl, Table.names_insert]
    split
    · next bound =>
      rw [List.mem_singleton]
      constructor
      · exact .inl
      · rintro (old | rfl)
        · exact old
        · exact bound
    · exact List.mem_append

end Machine.Gains

/-! One statement. -/

/-- What a statement adds to the global names. Only a lack of fuel can keep a class from being
bound. -/
def Stmt.Gained (s : Stmt) (m : Machine) : EStateM.Result Stop Machine Flow → Prop
  | .ok _ m' => m.Gains m' s.declared?.toList
  | .error stop m' => m.Gains m' s.declaredEarly ∨ stop = .exhausted ∧ m.Gains m' []

theorem Stmt.gained_of_leaves {s : Stmt} (plain : s.isDeclaration = false)
    (nonempty : 0 < m.store.frames.size) {result : EStateM.Result Stop Machine Flow}
    (leaves : m.Leaves none (machineBehind result)) : s.Gained m result := by
  have nothing : s.declared? = none ∧ s.declaredEarly = [] := by
    cases s <;> first | exact ⟨rfl, rfl⟩ | contradiction
  have gains := Machine.Gains.of_leaves leaves nonempty
  cases result with
  | ok flow m' =>
    rw [Gained, nothing.1]
    exact gains
  | error stop m' =>
    rw [Gained, nothing.2]
    exact .inl gains

theorem Stmt.gained_var (fuel : Nat) (name : Lexeme) (initial : Option Expr)
    (nonempty : 0 < m.store.frames.size) :
    (Stmt.var name initial).Gained m (execute (fuel + 1) globalFrame (.var name initial) m) := by
  cases initial with
  | none => exact Machine.Gains.define nonempty name.text .nil
  | some e =>
    have leaves := (evaluation_leaves fuel).1 none globalFrame e m
    have step : execute (fuel + 1) globalFrame (.var name (some e)) m =
        (evaluate fuel globalFrame e >>= fun v => do
          Eval.define globalFrame name.text v
          return .normal) m := by rw [execute]
    rw [step]
    simp only [Bind.bind, EStateM.bind]
    cases ran : evaluate fuel globalFrame e m with
    | error stop m' =>
      rw [ran] at leaves
      exact .inl (.of_leaves leaves nonempty)
    | ok v m' =>
      rw [ran] at leaves
      have gains := Machine.Gains.of_leaves leaves nonempty
      exact gains.trans (.define (Nat.lt_of_lt_of_le nonempty leaves.frames) name.text v)

theorem Stmt.gained_class (fuel : Nat) (name : Lexeme) (superclass : Option Superclass)
    (methods : List FunctionDecl) (nonempty : 0 < m.store.frames.size) :
    (Stmt.classDecl name superclass methods).Gained m
      (execute (fuel + 1) globalFrame (.classDecl name superclass methods) m) := by
  let named : Machine := { m with store := m.store.define globalFrame name.text .nil }
  have first : m.Gains named [name.text] := .define nonempty name.text .nil
  have there := Nat.lt_of_lt_of_le nonempty first.frames
  have looked : Leaving none (Eval.superclassOf globalFrame superclass) :=
    .superclassOf globalFrame superclass
  have leaves := looked named
  have step : execute (fuel + 1) globalFrame (.classDecl name superclass methods) m =
      (Eval.superclassOf globalFrame superclass >>= fun parent => do
        Eval.define globalFrame name.text (.callable (.ofClass
          (.mk name.text parent (Eval.methodTable globalFrame methods))))
        return .normal) named := by
    rw [execute, Eval.declareClass, bind_assoc]
    simp only [bind_assoc]
    rfl
  rw [step]
  simp only [Bind.bind, EStateM.bind]
  cases ran : Eval.superclassOf globalFrame superclass named with
  | error stop m' =>
    rw [ran] at leaves
    have second := first.trans (.of_leaves leaves there)
    exact .inl (second.same (by simp [declaredEarly, isClass, declared?]))
  | ok parent m' =>
    rw [ran] at leaves
    have second := first.trans (.of_leaves leaves there)
    have inside := Nat.lt_of_lt_of_le there leaves.frames
    exact (second.trans (.define inside name.text _)).same (by simp [declared?])

/-- Every statement at the top level. -/
theorem Stmt.gained (fuel : Nat) {s : Stmt} (ranked : s.Ranked)
    (nonempty : 0 < m.store.frames.size) : s.Gained m (execute fuel globalFrame s m) := by
  by_cases plain : s.isDeclaration = false
  · exact gained_of_leaves plain nonempty ((evaluation_leaves fuel).2.1 (.inr ⟨plain, ranked⟩) m)
  · cases fuel with
    | zero =>
      rw [execute]
      exact .inr ⟨rfl, .of_leaves (.refl none m) nonempty⟩
    | succ fuel =>
      cases s with
      | var name initial => exact gained_var fuel name initial nonempty
      | function declaration =>
        rw [execute]
        exact Machine.Gains.define nonempty declaration.name.text _
      | classDecl name superclass methods => exact gained_class fuel name superclass methods nonempty
      | _ => exact absurd rfl plain

theorem Stmt.declaredEarly_subset (s : Stmt) : s.declaredEarly ⊆ s.declared?.toList := by
  unfold declaredEarly
  split
  · exact List.Subset.refl _
  · exact List.nil_subset _

theorem Stmt.mem_declaredEarly {s : Stmt} {x : String} :
    x ∈ s.declaredEarly ↔ s.isClass = true ∧ s.declared? = some x := by
  unfold declaredEarly
  split
  · next isClass => simp [isClass]
  · next other => simp [other]

/-! Programs. -/

/-- The run of a program stops in one of its statements. -/
structure StopsIn (fuel : Nat) (program : List Stmt) (start : Machine) (front : List Stmt)
    (s : Stmt) (stop : Stop) (behind : Machine) : Prop where
  split : ∃ rest, program = front ++ s :: rest
  reached : ∃ m, runProgram fuel front start = .ok () m ∧
    execute fuel globalFrame s m = .error stop behind

theorem declaredNames_cons (s : Stmt) (rest : List Stmt) :
    declaredNames (s :: rest) = s.declared?.toList ++ declaredNames rest := by
  unfold declaredNames
  cases declared : s.declared? <;> simp [declared]

theorem runProgram_cons (fuel : Nat) (s : Stmt) (rest : List Stmt) (m : Machine) :
    runProgram fuel (s :: rest) m =
      match execute fuel globalFrame s m with
      | .ok .normal m' => runProgram fuel rest m'
      | .ok (.returned _) m' => .error (.fault .topLevelReturn) m'
      | .error stop m' => .error stop m' := by
  simp only [runProgram, Bind.bind, EStateM.bind]
  cases execute fuel globalFrame s m with
  | error stop m' => rfl
  | ok flow m' => cases flow <;> rfl

/-- A program that runs through declares all its names. -/
theorem runProgram_gains {fuel : Nat} {program : List Stmt} (ranked : Stmt.RankedEach program)
    (nonempty : 0 < m.store.frames.size) (ran : runProgram fuel program m = .ok () m') :
    m.Gains m' (declaredNames program) := by
  induction program generalizing m with
  | nil =>
    cases ran
    exact .of_leaves (.refl none _) nonempty
  | cons s rest ih =>
    have first := Stmt.gained fuel ranked.1 nonempty
    rw [runProgram_cons] at ran
    rw [declaredNames_cons]
    cases one : execute fuel globalFrame s m with
    | error stop m₁ =>
      rw [one] at ran
      contradiction
    | ok flow m₁ =>
      rw [one] at first ran
      cases flow with
      | returned v => contradiction
      | normal => exact first.trans (ih ranked.2 (Nat.lt_of_lt_of_le nonempty first.frames) ran)

/-- However a program ends, the names it has added are among those it declares. -/
theorem runProgram_gains_some (fuel : Nat) {program : List Stmt} (ranked : Stmt.RankedEach program)
    (nonempty : 0 < m.store.frames.size) : ∃ names ⊆ declaredNames program,
      m.Gains (machineBehind (runProgram fuel program m)) names := by
  induction program generalizing m with
  | nil => exact ⟨[], List.nil_subset _, .of_leaves (.refl none m) nonempty⟩
  | cons s rest ih =>
    have first := Stmt.gained fuel ranked.1 nonempty
    rw [runProgram_cons, declaredNames_cons]
    cases one : execute fuel globalFrame s m with
    | error stop m₁ =>
      rw [one] at first
      rcases first with gains | ⟨_, gains⟩
      · exact ⟨_, List.subset_append_of_subset_left _ s.declaredEarly_subset, gains⟩
      · exact ⟨_, List.nil_subset _, gains⟩
    | ok flow m₁ =>
      rw [one] at first
      cases flow with
      | returned v => exact ⟨_, List.subset_append_left _ _, first⟩
      | normal =>
        obtain ⟨names, among, gains⟩ := ih ranked.2 (Nat.lt_of_lt_of_le nonempty first.frames)
        have also := List.subset_append_of_subset_right s.declared?.toList among
        exact ⟨_, List.append_subset.mpr ⟨List.subset_append_left _ _, also⟩, first.trans gains⟩

/-- A run that stops has come to the statement it stops in. -/
theorem StopsIn.of_error {fuel : Nat} {program : List Stmt} {stop : Stop}
    (stopped : runProgram fuel program m = .error stop m')
    (notReturn : stop ≠ .fault .topLevelReturn) :
    ∃ front s, StopsIn fuel program m front s stop m' := by
  induction program generalizing m with
  | nil => contradiction
  | cons s rest ih =>
    rw [runProgram_cons] at stopped
    cases one : execute fuel globalFrame s m with
    | error other m₁ =>
      rw [one] at stopped
      cases stopped
      exact ⟨[], s, ⟨rest, rfl⟩, m, rfl, one⟩
    | ok flow m₁ =>
      rw [one] at stopped
      cases flow with
      | returned v =>
        cases stopped
        contradiction
      | normal =>
        obtain ⟨front, t, ⟨others, split⟩, m₂, ran, there⟩ := ih stopped
        refine ⟨s :: front, t, ⟨others, by rw [split]; rfl⟩, m₂, ?_, there⟩
        rw [runProgram_cons, one]
        exact ran

/-- Where a run stops is where the whole program stops. -/
theorem StopsIn.error {fuel : Nat} {program front : List Stmt} {s : Stmt} {stop : Stop}
    (stops : StopsIn fuel program m front s stop m') :
    runProgram fuel program m = .error stop m' := by
  obtain ⟨⟨rest, rfl⟩, m₁, ran, there⟩ := stops
  induction front generalizing m with
  | nil =>
    cases ran
    rw [List.nil_append, runProgram_cons, there]
  | cons t others ih =>
    rw [runProgram_cons] at ran
    rw [List.cons_append, runProgram_cons]
    cases one : execute fuel globalFrame t m with
    | error other m₂ =>
      rw [one] at ran
      contradiction
    | ok flow m₂ =>
      rw [one] at ran
      cases flow with
      | returned v => contradiction
      | normal => exact ih ran

theorem StopsIn.gains {fuel : Nat} {program front : List Stmt} {s : Stmt} {stop : Stop}
    (stops : StopsIn fuel program m front s stop m') (ranked : Stmt.RankedEach program)
    (nonempty : 0 < m.store.frames.size) (fueled : stop ≠ .exhausted) :
    m.Gains m' (declaredNames front ++ s.declaredEarly) := by
  obtain ⟨⟨rest, rfl⟩, m₁, ran, there⟩ := stops
  have each := (Stmt.rankedEach_iff _).mp ranked
  have first := runProgram_gains
    ((Stmt.rankedEach_iff front).mpr fun t member => each t (by simp [member])) nonempty ran
  have last := Stmt.gained fuel (each s (by simp)) (Nat.lt_of_lt_of_le nonempty first.frames)
  rw [there] at last
  rcases last with gains | ⟨exhausted, _⟩
  · exact first.trans gains
  · contradiction

/-! Sessions. -/

/-- How the run of a source that passes the checks may end. -/
theorem Session.run_cases {s : Session} {source : String} {checked : Checked} {next : ExprId}
    (passed : checkSource s.machine.globalNames s.nextId source = (.ok checked, next)) (fuel : Nat) :
    (∃ m, runProgram fuel checked.program (s.machine.note checked.entries) = .ok () m ∧
      (s.run fuel source = (.finished, ⟨m, next⟩) ∨
        s.run fuel source =
          (.failed (.output (.flushRefused s.machine.sink.flushText)), ⟨m, next⟩))) ∨
    ∃ stop m, runProgram fuel checked.program (s.machine.note checked.entries) = .error stop m ∧
      s.run fuel source = (.ofStop stop, ⟨m, next⟩) := by
  have texts := runProgram_flushText fuel checked.program (s.machine.note checked.entries)
  simp only [Session.run, Session.check, passed, interpret, Bind.bind, EStateM.bind]
  cases ran : runProgram fuel checked.program (s.machine.note checked.entries) with
  | error stop m => exact .inr ⟨stop, m, rfl, rfl⟩
  | ok _ m =>
    rw [ran] at texts
    have text : m.sink.flushText = s.machine.sink.flushText := texts
    refine .inl ⟨m, rfl, ?_⟩
    simp only [Eval.flush, text]
    cases m.sink.flushable with
    | true => exact .inl rfl
    | false => exact .inr rfl

theorem Session.run_machine {s : Session} {source : String} {checked : Checked} {next : ExprId}
    (passed : checkSource s.machine.globalNames s.nextId source = (.ok checked, next)) (fuel : Nat) :
    (s.run fuel source).2.machine =
      machineBehind (runProgram fuel checked.program (s.machine.note checked.entries)) := by
  rcases Session.run_cases passed fuel with ⟨m, ran, ended | ended⟩ | ⟨stop, m, ran, ended⟩ <;>
    rw [ran, ended] <;> rfl

/-- What an input adds to the global names is declared at the top level of its program. -/
theorem Session.answer_gains {s : Session} (nonempty : 0 < s.machine.store.frames.size)
    (input : Input) : ∃ names, s.machine.Gains (s.answer input).2.machine names ∧
      ∀ x ∈ names, ∃ fuel source checked next, input = .run fuel source ∧
        checkSource s.machine.globalNames s.nextId source = (.ok checked, next) ∧
        x ∈ declaredNames checked.program := by
  have nothing : s.machine.Gains s.machine [] := .of_leaves (.refl none _) nonempty
  cases input with
  | parse source => exact ⟨[], nothing, nofun⟩
  | run fuel source =>
    rw [Session.answer_run]
    rcases passed : checkSource s.machine.globalNames s.nextId source with ⟨errors | checked, next⟩
    · refine ⟨[], ?_, nofun⟩
      rw [Session.run, Session.check, passed]
      exact nothing
    · have ranked := (checkSource_drawn passed).2
      obtain ⟨names, among, gains⟩ := runProgram_gains_some
        (m := s.machine.note checked.entries) fuel ranked nonempty
      rw [← Session.run_machine passed] at gains
      refine ⟨names, ⟨gains.frames, gains.names⟩, fun x member => ?_⟩
      exact ⟨fuel, source, checked, next, rfl, passed, among member⟩

theorem Session.after_nonempty {s : Session} (nonempty : 0 < s.machine.store.frames.size)
    (history : List Input) : 0 < (s.after history).machine.store.frames.size := by
  induction history generalizing s with
  | nil => exact nonempty
  | cons input rest ih =>
    obtain ⟨_, gains, _⟩ := Session.answer_gains nonempty input
    exact ih (Nat.lt_of_lt_of_le nonempty gains.frames)

/-- The global names are the executed declarations of the top level. Behind any history, a source that
passes the checks and runs through adds the names of all its top-level declarations; one that stops
in a statement adds those of the statements before it, and of that statement itself only if it is a
class. If a run fails it has stopped so, or all of it was run and its output cannot be flushed. No
input takes a global name away, and none adds a name that is not declared at its top level. -/
theorem globals_are_executed_declarations (sink : Sink) (clock : Clock) (history : List Input) :
    let s := (Session.start sink clock).after history
    (∀ fuel source checked next,
      checkSource s.machine.globalNames s.nextId source = (.ok checked, next) →
      let start := s.machine.note checked.entries
      let ended := s.run fuel source
      (ended.1 = .finished → ∀ x, x ∈ ended.2.machine.globalNames ↔
        x ∈ s.machine.globalNames ∨ x ∈ declaredNames checked.program) ∧
      (∀ front statement stop behind,
        StopsIn fuel checked.program start front statement stop behind → stop ≠ .exhausted →
        ended.1 = .ofStop stop ∧ ∀ x, x ∈ ended.2.machine.globalNames ↔
          x ∈ s.machine.globalNames ∨ x ∈ declaredNames front ∨
            statement.isClass = true ∧ statement.declared? = some x) ∧
      ∀ error, ended.1 = .failed error →
        (∃ front statement stop behind,
          StopsIn fuel checked.program start front statement stop behind ∧
          Outcome.ofStop stop = .failed error) ∨
        error = .output (.flushRefused s.machine.sink.flushText) ∧
          ∀ x, x ∈ ended.2.machine.globalNames ↔
            x ∈ s.machine.globalNames ∨ x ∈ declaredNames checked.program) ∧
    ∀ input, ∀ x,
      (x ∈ s.machine.globalNames → x ∈ (s.answer input).2.machine.globalNames) ∧
      (x ∈ (s.answer input).2.machine.globalNames → x ∈ s.machine.globalNames ∨
        ∃ fuel source checked next, input = .run fuel source ∧
          checkSource s.machine.globalNames s.nextId source = (.ok checked, next) ∧
          x ∈ declaredNames checked.program) := by
  intro s
  have nonempty : 0 < s.machine.store.frames.size :=
    Session.after_nonempty (by simp [Session.start, Machine.start]) history
  constructor
  · intro fuel source checked next passed start ended
    have ranked := (checkSource_drawn passed).2
    have through {m : Machine} (ran : runProgram fuel checked.program start = .ok () m) (x : String) :
        x ∈ m.globalNames ↔ x ∈ s.machine.globalNames ∨ x ∈ declaredNames checked.program :=
      (runProgram_gains (m := start) ranked nonempty ran).names x
    have cases := Session.run_cases passed fuel
    rw [show s.run fuel source = ended from rfl] at cases
    refine ⟨fun finished => ?_, fun front statement stop behind stops fueled => ?_,
      fun error failed => ?_⟩
    · rcases cases with ⟨m, ran, done | refused⟩ | ⟨stop, m, _, stopped⟩
      · rw [done]
        exact through ran
      · rw [refused] at finished
        contradiction
      · rw [stopped] at finished
        cases stop <;> contradiction
    · have stopped := stops.error
      have gains := stops.gains ranked nonempty fueled
      rcases cases with ⟨m, ran, _⟩ | ⟨other, m, ran, done⟩
      · rw [stopped] at ran
        contradiction
      · rw [stopped] at ran
        cases ran
        rw [done]
        refine ⟨rfl, fun x => ?_⟩
        rw [gains.names, List.mem_append, Stmt.mem_declaredEarly]
        rfl
    · rcases cases with ⟨m, ran, done | refused⟩ | ⟨stop, m, ran, stopped⟩
      · rw [done] at failed
        contradiction
      · rw [refused] at failed ⊢
        cases failed
        exact .inr ⟨rfl, through ran⟩
      · rw [stopped] at failed
        have notReturn : stop ≠ .fault .topLevelReturn := by
          rintro rfl
          contradiction
        obtain ⟨front, statement, stops⟩ := StopsIn.of_error ran notReturn
        exact .inl ⟨front, statement, stop, m, stops, failed⟩
  · intro input x
    obtain ⟨names, gains, declared⟩ := Session.answer_gains nonempty input
    rw [gains.names x]
    exact ⟨.inl, Or.imp_right (declared x)⟩

/-- A class whose superclass is not one. Its name stays, and what follows it is not declared. -/
theorem class_of_native_stays_bound :
    ∃ ended, (Session.start {} ⟨fun _ => 0, 0⟩).run 9 "class A<clock{}var b;" = ended ∧
      ended.1 = .failed (.runtime ⟨.superclassNotClass, 1⟩) ∧
      ∀ x, x ∈ ended.2.machine.globalNames ↔ x = "clock" ∨ x = "A" := by
  obtain ⟨s, start⟩ : ∃ s, Session.start {} ⟨fun _ => 0, 0⟩ = s := ⟨_, rfl⟩
  obtain ⟨source, text⟩ : ∃ source, "class A<clock{}var b;" = source := ⟨_, rfl⟩
  obtain ⟨result, passed⟩ :
      ∃ result, checkSource s.machine.globalNames s.nextId source = result := ⟨_, rfl⟩
  have read : result.1.toOption.map (fun checked => checked.program.map fun statement =>
      (statement.isClass, statement.declared?,
        match execute 9 globalFrame statement (s.machine.note checked.entries) with
        | .ok _ _ => none
        | .error stop _ => some stop)) =
      some [(true, some "A", some (.error ⟨.superclassNotClass, 1⟩)), (false, some "b", none)] := by
    rw [← passed, ← start, ← text]
    decide +kernel
  have globals : s.machine.globalNames = ["clock"] := by
    rw [← start]
    decide +kernel
  have told := globals_are_executed_declarations {} ⟨fun _ => 0, 0⟩ []
  rw [start, Session.after] at told
  obtain ⟨_ | ⟨program, entries⟩, next⟩ := result
  · contradiction
  obtain ⟨first, rest, split, here, _⟩ := List.map_eq_cons_iff.mp (Option.some.inj read)
  obtain ⟨isClass, other⟩ := Prod.mk.inj here
  obtain ⟨declared, stopped⟩ := Prod.mk.inj other
  obtain ⟨behind, there⟩ : ∃ behind, execute 9 globalFrame first (s.machine.note entries) =
      .error (.error ⟨.superclassNotClass, 1⟩) behind := by
    dsimp only at stopped
    generalize execute 9 globalFrame first (s.machine.note entries) = result at stopped ⊢
    cases result <;> cases stopped
    exact ⟨_, rfl⟩
  obtain ⟨failed, names⟩ := (told.1 9 source _ next passed).2.1 [] first _ behind
    ⟨⟨rest, split⟩, _, rfl, there⟩ nofun
  refine ⟨_, rfl, ?_⟩
  rw [start, text]
  refine ⟨failed, fun x => ?_⟩
  have added : first.isClass = true ∧ first.declared? = some x ↔ x = "A" := by
    simp [isClass, declared, eq_comm]
  rw [names, added, globals, List.mem_singleton]
  simp [declaredNames]

end ScopeScript
