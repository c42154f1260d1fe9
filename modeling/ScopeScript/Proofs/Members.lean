import ScopeScript.Proofs.Member.Evaluate
import ScopeScript.Proofs.Trace.Session

/-! What a property of an object is. A class has the methods of one table, which its declaration makes
from the table of its superclass. An object has the fields that were set on it, and else the methods
of its class. A call that gives as many arguments as are taken binds each of them to a parameter. -/
namespace ScopeScript

/-- The methods of a class are those of one table. -/
structure Class.Flattens (past : List Moment) (c : Class) (table : Table Closure) : Prop where
  built : c.Built past table
  methods : ∀ x, c.method? x = table.get? x
  arity : c.arity = (table.get? initName).elim 0 Closure.arity
  chain : (c :: c.ancestors).Nodup

theorem Class.Built.flattens {past : List Moment} {c : Class} {table : Table Closure}
    (built : c.Built past table) : c.Flattens past table :=
  ⟨built, built.method?_eq, built.arity_eq, c.nodup_ancestors⟩

/-- A class that a machine can come across: one that is bound or kept in a field, one that has
objects, or a superclass of such a class. -/
inductive Machine.Holds (m : Machine) : Class → Prop where
  | binding {f : FrameId} {x : String} {c : Class}
      (bound : (m.store.frame f).bindings.get? x = some (.callable (.ofClass c))) : m.Holds c
  | field {i : ObjectId} {x : String} {c : Class}
      (kept : m.field? i x = some (.callable (.ofClass c))) : m.Holds c
  | origin {i : ObjectId} {o : Object} (there : m.objects[i]? = some o) : m.Holds o.origin
  | ancestor {c k : Class} (held : m.Holds c) (above : k ∈ c.ancestors) : m.Holds k

/-- What reading a property comes to: the value that the field was last set to, else the method
of the table, bound to the object in a new frame, else an error. -/
def propertyOf (past : List Moment) (table : Table Closure) (object : ObjectId) (name : Lexeme)
    (m : Machine) : EStateM.Result Stop Machine Value :=
  match lastSet past object name.text with
  | some v => .ok v m
  | none =>
    match table.get? name.text with
    | some method => .ok (.callable (.function { method with scope := m.store.nextFrame }))
        { m with store := m.store.add { bindings := .ofList [(thisName, .object object)]
                                        enclosing := some method.scope } }
    | none => .error (.error ⟨.undefinedProperty name.text, name.line⟩) m

/-- How classes and properties are looked up at a stage of a session. -/
structure Stage.LooksUp (g : Stage) : Prop where
  classes : ∀ c, g.machine.Holds c → ∃ table, c.Flattens g.past table
  properties : ∀ (i : ObjectId) o, g.machine.objects[i]? = some o →
    ∃ table, o.origin.Flattens g.past table ∧
      ∀ name, Eval.readProperty i name g.machine = propertyOf g.past table i name g.machine

theorem Stage.Known.holds {g : Stage} (known : g.Known) {c : Class} (held : g.machine.Holds c) :
    ∃ table, c.Built g.past table := by
  induction held with
  | binding bound => exact Class.Known.built (known.frames _ _ _ bound)
  | field kept => exact Class.Known.built (known.held _ _ _ kept)
  | origin there => exact (known.origins _ _ there).built
  | ancestor _ above ih =>
    obtain ⟨_, built⟩ := ih
    exact built.ancestors _ above

theorem Stage.Known.readProperty {g : Stage} (known : g.Known) {i : ObjectId} {o : Object}
    (there : g.machine.objects[i]? = some o) {table : Table Closure}
    (built : o.origin.Built g.past table) (name : Lexeme) :
    Eval.readProperty i name g.machine = propertyOf g.past table i name g.machine := by
  have field : (g.machine.objects[i]?).bind (·.fields.get? name.text) =
    lastSet g.past i name.text := known.fields i name.text
  have method : (g.machine.objects[i]?).bind (·.origin.method? name.text) = table.get? name.text := by
    rw [there]
    exact built.method?_eq name.text
  rw [Eval.readProperty, Eval.get_bind, field, method, propertyOf]
  cases lastSet g.past i name.text with
  | some v => rfl
  | none => cases table.get? name.text <;> rfl

theorem Stage.Known.looksUp {g : Stage} (known : g.Known) : g.LooksUp := by
  constructor
  · intro c held
    obtain ⟨table, built⟩ := known.holds held
    exact ⟨table, built.flattens⟩
  · intro i o there
    obtain ⟨table, built⟩ := (known.origins i o there).built
    exact ⟨table, built.flattens, known.readProperty there built⟩

/-- How look-ups go at a moment. A declaration of a class that succeeds binds its name to a class of
one table, and a function that is entered finds its arguments. -/
structure Moment.LooksUp (past : List Moment) (moment : Moment) : Prop where
  stage : Stage.LooksUp ⟨past, moment.machine⟩
  declared : ∀ f name superclass methods m,
    moment.act = .statement f (.classDecl name superclass methods) →
    Eval.declareClass f name superclass methods moment.machine = .ok () m →
    ∃ c table, c.Flattens (past ++ [moment]) table ∧
      m.store = (moment.machine.store.define f name.text .nil).define f name.text
        (.callable (.ofClass c))
  entered : ∀ f arguments frame, moment.act = .enter f arguments frame →
    f.Entered arguments frame moment.machine

theorem Moment.Known.looksUp {past : List Moment} {moment : Moment} (known : moment.Known past) :
    moment.LooksUp past := by
  refine ⟨known.stage.looksUp, ?_, known.entered⟩
  intro f name superclass methods m told declared
  obtain ⟨act, machine⟩ := moment
  cases told
  rw [Eval.declareClass_eq] at declared
  have same := Eval.machineBehind_superclassOf f superclass
    { machine with store := machine.store.define f name.text .nil }
  cases looked : Eval.superclassOf f superclass
    { machine with store := machine.store.define f name.text .nil } with
  | error stop m' =>
    rw [looked] at declared
    contradiction
  | ok parent m' =>
    obtain ⟨⟨table, built⟩, _⟩ := known.stage.built methods looked
    rw [looked] at declared same
    cases same
    cases declared
    exact ⟨_, table, built.flattens, rfl⟩

/-! Histories. -/

namespace Session

def momentsOf (s : Session) : Input → List Moment
  | .run fuel source => s.trace fuel source
  | .parse _ => []

/-- All moments of a history. -/
def moments (s : Session) : List Input → List Moment
  | [] => []
  | input :: rest => s.momentsOf input ++ (s.answer input).2.moments rest

variable {s : Session} {past : List Moment}

theorem knownEach_answer (known : Stage.Known ⟨past, s.machine⟩) (input : Input) :
    KnownEach past (s.momentsOf input) ∧
      Stage.Known ⟨past ++ s.momentsOf input, (s.answer input).2.machine⟩ := by
  cases input with
  | parse source =>
    refine ⟨trivial, ?_⟩
    rw [momentsOf, List.append_nil]
    exact known
  | run fuel source =>
    rw [momentsOf, answer_run]
    cases checked : checkSource s.machine.globalNames s.nextId source with
    | mk result next =>
      cases result with
      | error errors =>
        rw [trace_of_errors checked, run_of_errors checked, List.append_nil]
        exact ⟨trivial, known⟩
      | ok program =>
        have noted : Stage.Known ⟨past, s.machine.note program.entries⟩ := known.apart rfl rfl
        obtain ⟨each, behind⟩ := Traced.Tells.interpret fuel (checkSource_passed checked) noted
        rw [trace_of_checked checked, run_of_checked checked]
        refine ⟨each, ?_⟩
        rw [Traced.faithful.programs] at behind
        dsimp only at behind ⊢
        generalize interpret fuel program.program (s.machine.note program.entries) = r at behind ⊢
        cases r with
        | ok _ m => exact behind.1
        | error stop m => exact behind

theorem knownEach_moments (known : Stage.Known ⟨past, s.machine⟩) (history : List Input) :
    KnownEach past (s.moments history) ∧
      Stage.Known ⟨past ++ s.moments history, (s.after history).machine⟩ := by
  induction history generalizing s past with
  | nil =>
    rw [moments, after, List.append_nil]
    exact ⟨trivial, known⟩
  | cons input rest ih =>
    obtain ⟨first, behind⟩ := knownEach_answer known input
    obtain ⟨others, last⟩ := ih behind
    rw [moments, after, ← List.append_assoc]
    exact ⟨knownEach_append.mpr ⟨first, others⟩, last⟩

/-- At the start there is a native function, and nothing has happened. -/
theorem start_known (sink : Sink) (clock : Clock) :
    Stage.Known ⟨[], (Session.start sink clock).machine⟩ := by
  refine ⟨fun f x v bound => ?_, nofun, nofun, fun _ _ => rfl⟩
  change ((Store.add {} _).frame f).bindings.get? x = some v at bound
  rw [Store.frame_add] at bound
  split at bound
  · cases List.mem_singleton.mp (Table.mem_of_get?_ofList bound)
    trivial
  · contradiction

end Session

/-! Calls. -/

/-- The body that a call enters and the frame it gets: that of the function, or that of the `init` of
a class once it is bound to the new object. -/
def Callable.body? (m : Machine) : Callable → Option (Closure × FrameId)
  | .native _ => none
  | .function f => some (f, m.store.nextFrame)
  | .ofClass c => (c.method? initName).map fun method =>
    ({ method with scope := m.store.nextFrame }, m.store.nextFrame + 1)

theorem Traced.call_begins (run : FrameId → Stmt → Traced Flow) {f : Callable}
    {arguments : List Value} (enough : arguments.length = f.arity) (closing : Lexeme) (m : Machine) :
    ((call run (.callable f) arguments closing).moments m).head?.map (·.act) =
      (f.body? m).map fun (g, frame) => .enter g arguments frame := by
  unfold Traced.call
  dsimp only
  rw [if_pos enough]
  cases f with
  | native f =>
    cases f
    rfl
  | function f => rfl
  | ofClass c =>
    simp only [Traced.enter, construct, Callable.body?]
    cases c.method? initName with
    | none => rfl
    | some method =>
      -- `this` comes first
      have second : (m.store.add { bindings := .ofList [(thisName, .object m.objects.size)]
                                   enclosing := some method.scope }).nextFrame =
        m.store.nextFrame + 1 := Array.size_push _
      rw [← second]
      rfl

/-- Members are found in one table. After any history and at all of its moments, the methods of a
class are those of its superclass with its own put over them, the last of one name counting, and no
class is above itself. A property is the field that was set last, else the method of that table, else
an error. A call that gives as many arguments as are taken enters the body it was counted for, each
parameter bound to its own argument. -/
theorem members_found_in_one_table (sink : Sink) (clock : Clock) (history : List Input) :
    Traced.Faithful ∧
    (∀ inherited frame methods x, (Table.overriddenBy inherited frame methods).get? x =
      ((methods.reverse.find? (·.name.text = x)).map (.ofMethod frame)).or (inherited.get? x)) ∧
    (∀ run f arguments closing m, arguments.length = f.arity →
      ((Traced.call run (.callable f) arguments closing).moments m).head?.map (·.act) =
        (f.body? m).map fun (g, frame) => .enter g arguments frame) ∧
    (∀ front moment rest, (Session.start sink clock).moments history = front ++ moment :: rest →
      moment.LooksUp front) ∧
    Stage.LooksUp ⟨(Session.start sink clock).moments history,
      ((Session.start sink clock).after history).machine⟩ := by
  obtain ⟨each, behind⟩ := Session.knownEach_moments (Session.start_known sink clock) history
  refine ⟨Traced.faithful, Table.get?_overriddenBy, ?_, ?_, behind.looksUp⟩
  · exact fun run f arguments closing m enough => Traced.call_begins run enough closing m
  · intro front moment rest split
    rw [split] at each
    exact each.split.looksUp

/-- How many parameters a body that is entered has. -/
def Act.arity? : Act → Option Nat
  | .enter f _ _ => some f.arity
  | .value _ _ | .statement _ _ | .print _ | .set _ _ _ => none

/-- An inherited `init` takes both of its arguments, and of two methods of one name the second one is
inherited. -/
theorem subclass_finds_inherited_members :
    let s := Session.start {} ⟨fun _ => 0, 0⟩
    let history := [Input.run 12 "class A{init(a,b){this.x=a;}m(){}m(p){}}class B<A{}var i=B(1,2);"]
    (∃ front moment rest f arguments frame, s.moments history = front ++ moment :: rest ∧
      moment.act = .enter f arguments frame ∧ f.arity = 2 ∧
      f.Entered arguments frame moment.machine) ∧
    ∃ o table, (s.after history).machine.objects[0]? = some o ∧ o.origin.name = "B" ∧
      o.origin.Flattens (s.moments history) table ∧
      (table.get? "m").map Closure.arity = some 1 := by
  intro s history
  have laws := members_found_in_one_table {} ⟨fun _ => 0, 0⟩ history
  have start : Session.start {} ⟨fun _ => 0, 0⟩ = s := rfl
  have told : (s.moments history).any (·.act.arity? = some 2) = true := by decide +kernel
  have made : ((s.after history).machine.objects[(0 : ObjectId)]?).map (fun o =>
      (o.origin.name, (o.origin.method? "m").map Closure.arity)) = some ("B", some 1) := by
    decide +kernel
  rw [start] at laws
  -- from here on the session need not be run again
  clear_value s history
  obtain ⟨_, _, _, atMoments, atEnd⟩ := laws
  constructor
  · obtain ⟨moment, member, entered⟩ := List.any_eq_true.mp told
    obtain ⟨front, rest, parts⟩ := List.append_of_mem member
    have two := of_decide_eq_true entered
    cases act : moment.act with
    | enter f arguments frame =>
      rw [act] at two
      exact ⟨front, moment, rest, f, arguments, frame, parts, act, Option.some.inj two,
        (atMoments front moment rest parts).entered f arguments frame act⟩
    | value _ _ | statement _ _ | print _ | set _ _ _ =>
      rw [act] at two
      contradiction
  · obtain ⟨o, there, shape⟩ := Option.map_eq_some_iff.mp made
    obtain ⟨named, method⟩ := Prod.mk.inj shape
    obtain ⟨table, flattens, _⟩ := atEnd.properties 0 o there
    rw [flattens.methods] at method
    exact ⟨o, table, there, named, flattens, method⟩

end ScopeScript
