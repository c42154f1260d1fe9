import ScopeScript.Proofs.History

/-! Evaluation that is watched. Every frame gets a role when it is made: it binds a method to an
object, or code runs in it, which belongs to the object that the nearest method around it is bound
to. A log says what became of `this`, of initializers, of new objects and of all that is written.
Without roles and log this is the same evaluation. -/
namespace ScopeScript

/-- What a frame was made for. -/
inductive Role where
  /-- Code runs in it, in a method of the receiver if it has one. -/
  | code (receiver : Option ObjectId)
  /-- It binds a method to an object. -/
  | bound (object : ObjectId)
  deriving DecidableEq

/-- The object that code inside a frame belongs to. -/
def Role.receiver? : Role → Option ObjectId
  | code receiver => receiver
  | bound object => some object

inductive Event where
  /-- `this` was evaluated in code that belongs to a receiver, and had a value unless it failed. -/
  | this (receiver : Option ObjectId) (value : Option Value)
  /-- A name was declared or written in a frame. -/
  | wrote (role : Role)
  /-- The body of an initializer was run, and its call gave back a value unless it failed. -/
  | initialized (receiver : Option ObjectId) (value : Option Value)
  /-- The call of a class gave back a value. There were `count` objects before it. -/
  | constructed (origin : Class) (count : Nat) (value : Value)

structure Watch where
  machine : Machine
  roles : Array Role
  log : List Event := []

namespace Watch
variable {α β : Type}

abbrev Step := EStateM Stop Watch

def start (sink : Sink) (clock : Clock) : Watch where
  machine := .start sink clock
  roles := #[.code none]

def role (t : Watch) (f : FrameId) : Role := t.roles.getD f (.code none)

/-- A step of the machine alone. -/
def lift (p : Eval α) : Step α := fun t =>
  match p t.machine with
  | .ok a m => .ok a { t with machine := m }
  | .error stop m => .error stop { t with machine := m }

def fail (cause : RuntimeCause) (l : Lexeme) : Step α := lift (Eval.fail cause l)

def record (event : Event) : Step Unit := fun t => .ok () { t with log := t.log ++ [event] }

/-- A step of the machine alone whose result is recorded, also if there is none. -/
def told (p : Eval α) (event : Option α → Event) : Step α := fun t =>
  match p t.machine with
  | .ok a m => .ok a { t with machine := m, log := t.log ++ [event (some a)] }
  | .error stop m => .error stop { t with machine := m, log := t.log ++ [event none] }

def newFrame (role : Role) (frame : Frame Value) : Step FrameId := fun t =>
  .ok t.machine.store.nextFrame { t with
    machine := { t.machine with store := t.machine.store.add frame }
    roles := t.roles.push role }

def define (frame : FrameId) (name : String) (value : Value) : Step Unit := do
  record (.wrote ((← get).role frame))
  lift (Eval.define frame name value)

def writeName (frame : FrameId) (id : ExprId) (name : Lexeme) (value : Value) : Step Unit := do
  let owner ← lift (Eval.ownerOf frame id name)
  define owner name.text value

def readThis (frame : FrameId) (id : ExprId) (keyword : Lexeme) : Step Value := do
  let receiver := ((← get).role frame).receiver?
  told (Eval.readName frame id keyword) (.this receiver)

/-- The new frame is the only kind that binds `this`. -/
def bindMethod (method : Closure) (object : ObjectId) : Step Closure := do
  let frame ← newFrame (.bound object)
    { bindings := .ofList [(thisName, .object object)], enclosing := some method.scope }
  return { method with scope := frame }

def readProperty (object : ObjectId) (name : Lexeme) : Step Value := do
  let t ← get
  match (t.machine.objects[object]?).bind (·.fields.get? name.text) with
  | some v => return v
  | none =>
    match (t.machine.objects[object]?).bind (·.origin.method? name.text) with
    | some method => return .callable (.function (← bindMethod method object))
    | none => fail (.undefinedProperty name.text) name

def runEach (run : Stmt → Step Flow) : List Stmt → Step Flow
  | [] => return .normal
  | s :: rest => do
    match ← run s with
    | .normal => runEach run rest
    | .returned v => return .returned v

def valueEach (value : Expr → Step Value) : List Expr → Step (List Value)
  | [] => return []
  | e :: rest => do
    let v ← value e
    return v :: (← valueEach value rest)

/-- The body of a closure belongs to the receiver of the frame that the closure was made in. -/
def callClosure (run : FrameId → Stmt → Step Flow) (f : Closure) (arguments : List Value) :
    Step Value := do
  let params := f.declaration.params.map (·.text)
  let receiver := ((← get).role f.scope).receiver?
  let frame ← newFrame (.code receiver)
    { bindings := .ofList (params.zip arguments), enclosing := some f.scope }
  let flow ← runEach (run frame) f.declaration.body
  if f.isInit then
    told (do Eval.orFault ((← get).store.getAt f.scope 0 thisName)) (.initialized receiver)
  else
    match flow with
    | .normal => return .nil
    | .returned v => return v

def construct (run : FrameId → Stmt → Step Flow) (c : Class) (arguments : List Value) :
    Step Value := do
  let count := (← get).machine.objects.size
  let object ← lift (Eval.newObject c)
  match c.method? initName with
  | none => do
    record (.constructed c count (.object object))
    return .object object
  | some method => do
    let bound ← bindMethod method object
    let _ ← callClosure run bound arguments
    record (.constructed c count (.object object))
    return .object object

def enter (run : FrameId → Stmt → Step Flow) (arguments : List Value) : Callable → Step Value
  | .native .clock => return .number (← lift Eval.readClock)
  | .function f => callClosure run f arguments
  | .ofClass c => construct run c arguments

def call (run : FrameId → Stmt → Step Flow) (callee : Value) (arguments : List Value)
    (closing : Lexeme) : Step Value := do
  match callee with
  | .callable f =>
    if arguments.length = f.arity then enter run arguments f
    else fail (.wrongArity f.arity arguments.length) closing
  | _ => fail .notCallable closing

def declareClass (frame : FrameId) (name : Lexeme) (superclass : Option Superclass)
    (methods : List FunctionDecl) : Step Unit := do
  define frame name.text .nil
  let parent ← lift (Eval.superclassOf frame superclass)
  define frame name.text
    (.callable (.ofClass (.mk name.text parent (Eval.methodTable frame methods))))

mutual

/-- The value of an expression in a frame. -/
def evaluate : (fuel : Nat) → FrameId → Expr → Step Value
  | 0, _, _ => throw .exhausted
  | fuel + 1, frame, e =>
    match e with
    | .literal _ value => return value.value
    | .group _ inner => evaluate fuel frame inner
    | .var id name => lift (Eval.readName frame id name)
    | .this id keyword => readThis frame id keyword
    | .assign id name value => do
      let v ← evaluate fuel frame value
      writeName frame id name v
      return v
    | .unary _ op sign operand => do
      let v ← evaluate fuel frame operand
      lift (Eval.orFail sign (op.apply v))
    | .binary _ op sign left right => do
      let a ← evaluate fuel frame left
      let b ← evaluate fuel frame right
      lift (Eval.orFail sign (op.apply a b))
    | .logical _ op _ left right => do
      let v ← evaluate fuel frame left
      if op.decides v then return v else evaluate fuel frame right
    | .call _ callee arguments closing => do
      let f ← evaluate fuel frame callee
      let vs ← valueEach (evaluate fuel frame) arguments
      call (execute fuel) f vs closing
    | .get _ object property => do
      match ← evaluate fuel frame object with
      | .object id => readProperty id property
      | _ => fail .noProperties property
    | .set _ object property value => do
      match ← evaluate fuel frame object with
      | .object id => do
        let v ← evaluate fuel frame value
        lift (Eval.setField id property.text v)
        return v
      | _ => fail .noFields property

/-- Runs a statement in a frame. -/
def execute : (fuel : Nat) → FrameId → Stmt → Step Flow
  | 0, _, _ => throw .exhausted
  | fuel + 1, frame, s =>
    match s with
    | .expression value => do
      let _ ← evaluate fuel frame value
      return .normal
    | .print value => do
      lift (Eval.print (← evaluate fuel frame value))
      return .normal
    | .var name initial => do
      let v ← match initial with
        | none => pure .nil
        | some e => evaluate fuel frame e
      define frame name.text v
      return .normal
    | .block body => do
      let receiver := ((← get).role frame).receiver?
      let inner ← newFrame (.code receiver) { enclosing := some frame }
      runEach (execute fuel inner) body
    | .ifThen condition yes => do
      if (← evaluate fuel frame condition).truthy then execute fuel frame yes
      else return .normal
    | .ifElse condition yes no => do
      if (← evaluate fuel frame condition).truthy then execute fuel frame yes
      else execute fuel frame no
    | .whileLoop condition body => rounds fuel frame condition body
    | .function declaration => do
      define frame declaration.name.text (.callable (.function ⟨declaration, frame, false⟩))
      return .normal
    | .returns _ value => do
      let v ← match value with
        | none => pure .nil
        | some e => evaluate fuel frame e
      return .returned v
    | .classDecl name superclass methods => do
      declareClass frame name superclass methods
      return .normal

def rounds : (fuel : Nat) → FrameId → Expr → Stmt → Step Flow
  | 0, _, _, _ => throw .exhausted
  | fuel + 1, frame, condition, body => do
    if (← evaluate fuel frame condition).truthy then
      match ← execute fuel frame body with
      | .normal => rounds fuel frame condition body
      | .returned v => return .returned v
    else
      return .normal

end

def runProgram (fuel : Nat) : List Stmt → Step Unit
  | [] => return ()
  | s :: rest => do
    match ← execute fuel globalFrame s with
    | .normal => runProgram fuel rest
    | .returned _ => throw (.fault .topLevelReturn)

def interpret (fuel : Nat) (program : List Stmt) : Step Unit := do
  runProgram fuel program
  lift Eval.flush

/-- The state at the end, however it came about. -/
def behind : EStateM.Result Stop Watch α → Watch
  | .ok _ t | .error _ t => t

/-! Without roles and log. -/

/-- A result of the machine alone. -/
def erase : EStateM.Result Stop Watch α → EStateM.Result Stop Machine α
  | .ok a t => .ok a t.machine
  | .error stop t => .error stop t.machine

/-- A step that does to the machine what another one does, and only adds to the log. -/
structure Erases (p : Step α) (q : Eval α) : Prop where
  machine : ∀ t, erase (p t) = q t.machine
  log : ∀ t, t.log <+: (behind (p t)).log

namespace Erases
variable {p : Step α} {q : Eval α}

theorem lift (q : Eval α) : Erases (lift q) q := by
  constructor
  · intro t
    unfold Watch.lift
    cases q t.machine <;> rfl
  · intro t
    unfold Watch.lift
    cases q t.machine <;> exact List.prefix_refl _

theorem pure (a : α) : Erases (Pure.pure a) (Pure.pure a) :=
  ⟨fun _ => rfl, fun _ => List.prefix_refl _⟩

theorem throw (stop : Stop) : Erases (MonadExcept.throw stop : Step α) (MonadExcept.throw stop) :=
  ⟨fun _ => rfl, fun _ => List.prefix_refl _⟩

theorem fail (cause : RuntimeCause) (l : Lexeme) :
    Erases (fail cause l : Step α) (Eval.fail cause l) :=
  .lift _

theorem bind {f : α → Step β} {g : α → Eval β} (first : Erases p q)
    (next : ∀ a, Erases (f a) (g a)) : Erases (p >>= f) (q >>= g) := by
  constructor
  · intro t
    have here := first.machine t
    simp only [Bind.bind, EStateM.bind]
    cases ran : p t with
    | ok a t' =>
      rw [ran] at here
      rw [← here]
      exact (next a).machine t'
    | error stop t' =>
      rw [ran] at here
      rw [← here]
      rfl
  · intro t
    have here := first.log t
    simp only [Bind.bind, EStateM.bind]
    cases ran : p t with
    | ok a t' =>
      rw [ran] at here
      exact here.trans ((next a).log t')
    | error stop t' =>
      rw [ran] at here
      exact here

/-- What is looked up only to be recorded does not matter. -/
theorem get {f : Watch → Step α} (next : ∀ t, Erases (f t) q) : Erases (MonadState.get >>= f) q :=
  ⟨fun t => (next t).machine t, fun t => (next t).log t⟩

/-- Both look at the machine. -/
theorem getBoth {f : Watch → Step α} {g : Machine → Eval α} (next : ∀ t, Erases (f t) (g t.machine)) :
    Erases (MonadState.get >>= f) (MonadState.get >>= g) :=
  ⟨fun t => (next t).machine t, fun t => (next t).log t⟩

theorem record (event : Event) (next : Erases p q) :
    Erases (record event >>= fun _ => p) q :=
  ⟨fun t => next.machine { t with log := t.log ++ [event] },
    fun t => (List.prefix_append t.log [event]).trans (next.log { t with log := t.log ++ [event] })⟩

theorem told (q : Eval α) (event : Option α → Event) : Erases (told q event) q := by
  constructor
  · intro t
    unfold Watch.told
    cases q t.machine <;> rfl
  · intro t
    unfold Watch.told
    cases q t.machine <;> exact List.prefix_append _ _

theorem newFrame (role : Role) (frame : Frame Value) :
    Erases (newFrame role frame) (Eval.newFrame frame) :=
  ⟨fun _ => rfl, fun _ => List.prefix_refl _⟩

theorem define (frame : FrameId) (name : String) (value : Value) :
    Erases (define frame name value) (Eval.define frame name value) :=
  .get fun _ => .record _ (.lift _)

theorem writeName (frame : FrameId) (id : ExprId) (name : Lexeme) (value : Value) :
    Erases (writeName frame id name value) (Eval.writeName frame id name value) :=
  (Erases.lift _).bind fun owner => .define owner name.text value

theorem readThis (frame : FrameId) (id : ExprId) (keyword : Lexeme) :
    Erases (readThis frame id keyword) (Eval.readName frame id keyword) :=
  .get fun _ => .told _ _

theorem bindMethod (method : Closure) (object : ObjectId) :
    Erases (bindMethod method object) (Eval.bindMethod method object) :=
  (Erases.newFrame _ _).bind fun _ => .pure _

theorem readProperty (object : ObjectId) (name : Lexeme) :
    Erases (readProperty object name) (Eval.readProperty object name) := by
  refine .getBoth fun t => ?_
  cases (t.machine.objects[object]?).bind (·.fields.get? name.text) with
  | some v => exact .pure v
  | none =>
    dsimp only
    cases (t.machine.objects[object]?).bind (·.origin.method? name.text) with
    | some method => exact (Erases.bindMethod method object).bind fun _ => .pure _
    | none => exact .fail (.undefinedProperty name.text) name

theorem valueEach {value : Expr → Step Value} {value' : Expr → Eval Value}
    (values : ∀ e, Erases (value e) (value' e)) (es : List Expr) :
    Erases (valueEach value es) (Eval.valueEach value' es) := by
  induction es with
  | nil => exact .pure []
  | cons e rest ih => exact (values e).bind fun v => ih.bind fun vs => .pure (v :: vs)

theorem runEach {run : Stmt → Step Flow} {run' : Stmt → Eval Flow}
    (runs : ∀ s, Erases (run s) (run' s)) (body : List Stmt) :
    Erases (runEach run body) (Eval.runEach run' body) := by
  induction body with
  | nil => exact .pure Flow.normal
  | cons s rest ih =>
    apply (runs s).bind
    intro flow
    cases flow with
    | normal => exact ih
    | returned v => exact .pure _

section
variable {run : FrameId → Stmt → Step Flow} {run' : FrameId → Stmt → Eval Flow}
  (runs : ∀ f s, Erases (run f s) (run' f s))
include runs

theorem callClosure (f : Closure) (arguments : List Value) :
    Erases (callClosure run f arguments) (Eval.callClosure run' f arguments) := by
  refine .get fun t => (Erases.newFrame _ _).bind fun frame => ?_
  apply (Erases.runEach (runs frame) f.declaration.body).bind
  intro flow
  cases f.isInit with
  | true => exact .told _ _
  | false => cases flow <;> exact .pure _

theorem construct (c : Class) (arguments : List Value) :
    Erases (construct run c arguments) (Eval.construct run' c arguments) := by
  refine .get fun t => (Erases.lift _).bind fun object => ?_
  cases c.method? initName with
  | none => exact .record _ (.pure _)
  | some method =>
    refine (Erases.bindMethod method object).bind fun bound => ?_
    exact (Erases.callClosure runs bound arguments).bind fun _ => .record _ (.pure _)

theorem call (callee : Value) (arguments : List Value) (closing : Lexeme) :
    Erases (call run callee arguments closing) (Eval.call run' callee arguments closing) := by
  unfold Watch.call Eval.call
  cases callee with
  | number _ | string _ | boolean _ | nil | object _ => exact .fail _ closing
  | callable f =>
    dsimp only
    split
    · cases f with
      | native f => cases f; exact (Erases.lift Eval.readClock).bind fun _ => .pure _
      | function f => exact Erases.callClosure runs f arguments
      | ofClass c => exact Erases.construct runs c arguments
    · exact .fail _ closing

end

theorem declareClass (frame : FrameId) (name : Lexeme) (superclass : Option Superclass)
    (methods : List FunctionDecl) :
    Erases (declareClass frame name superclass methods)
      (Eval.declareClass frame name superclass methods) := by
  refine (Erases.define frame name.text Value.nil).bind fun _ => ?_
  exact (Erases.lift (Eval.superclassOf frame superclass)).bind fun _ => .define frame name.text _

end Erases

section
variable {fuel : Nat} (values : ∀ f e, Erases (evaluate fuel f e) (ScopeScript.evaluate fuel f e))
  (runs : ∀ f s, Erases (execute fuel f s) (ScopeScript.execute fuel f s))
  (loops : ∀ f condition body,
    Erases (rounds fuel f condition body) (ScopeScript.rounds fuel f condition body))

include values runs in
theorem evaluate_erases_succ (frame : FrameId) (e : Expr) :
    Erases (evaluate (fuel + 1) frame e) (ScopeScript.evaluate (fuel + 1) frame e) := by
  unfold evaluate ScopeScript.evaluate
  cases e with
  | literal id value => exact .pure _
  | group id inner => exact values frame inner
  | var id name => exact .lift _
  | this id keyword => exact .readThis frame id keyword
  | assign id name value =>
    apply (values frame value).bind
    intro v
    exact (Erases.writeName frame id name v).bind fun _ => .pure v
  | unary id op sign operand => exact (values frame operand).bind fun _ => .lift _
  | binary id op sign left right =>
    exact (values frame left).bind fun _ => (values frame right).bind fun _ => .lift _
  | logical id op sign left right =>
    apply (values frame left).bind
    intro v
    split
    · exact .pure v
    · exact values frame right
  | call id callee arguments closing =>
    apply (values frame callee).bind
    intro f
    apply (Erases.valueEach (values frame) arguments).bind
    intro vs
    exact .call runs f vs closing
  | get id object property =>
    apply (values frame object).bind
    intro v
    cases v with
    | object i => exact .readProperty i property
    | number _ | string _ | boolean _ | nil | callable _ => exact .fail _ property
  | set id object property value =>
    apply (values frame object).bind
    intro v
    cases v with
    | object i => exact (values frame value).bind fun v => (Erases.lift _).bind fun _ => .pure v
    | number _ | string _ | boolean _ | nil | callable _ => exact .fail _ property

include values runs loops in
theorem execute_erases_succ (frame : FrameId) (s : Stmt) :
    Erases (execute (fuel + 1) frame s) (ScopeScript.execute (fuel + 1) frame s) := by
  unfold execute ScopeScript.execute
  cases s with
  | expression value => exact (values frame value).bind fun _ => .pure _
  | print value => exact (values frame value).bind fun v => (Erases.lift _).bind fun _ => .pure _
  | var name initial =>
    have declared (v : Value) : Erases (do define frame name.text v; return Flow.normal)
        (do Eval.define frame name.text v; return Flow.normal) :=
      (Erases.define frame name.text v).bind fun _ => .pure _
    cases initial with
    | none => exact declared .nil
    | some e => exact (values frame e).bind declared
  | block body =>
    refine .get fun t => (Erases.newFrame _ _).bind fun inner => ?_
    exact .runEach (runs inner) body
  | ifThen condition yes =>
    apply (values frame condition).bind
    intro v
    split
    · exact runs frame yes
    · exact .pure _
  | ifElse condition yes no =>
    apply (values frame condition).bind
    intro v
    split
    · exact runs frame yes
    · exact runs frame no
  | whileLoop condition body => exact loops frame condition body
  | function declaration => exact (Erases.define frame _ _).bind fun _ => .pure _
  | returns keyword value =>
    cases value with
    | none => exact .pure _
    | some e => exact (values frame e).bind fun _ => .pure _
  | classDecl name superclass methods =>
    exact (Erases.declareClass frame name superclass methods).bind fun _ => .pure _

include values runs loops in
theorem rounds_erases_succ (frame : FrameId) (condition : Expr) (body : Stmt) :
    Erases (rounds (fuel + 1) frame condition body)
      (ScopeScript.rounds (fuel + 1) frame condition body) := by
  unfold rounds ScopeScript.rounds
  apply (values frame condition).bind
  intro v
  split
  · apply (runs frame body).bind
    intro flow
    cases flow with
    | normal => exact loops frame condition body
    | returned v => exact .pure _
  · exact .pure _

end

/-- Watching changes nothing. -/
theorem evaluation_erases (fuel : Nat) :
    (∀ f e, Erases (evaluate fuel f e) (ScopeScript.evaluate fuel f e)) ∧
    (∀ f s, Erases (execute fuel f s) (ScopeScript.execute fuel f s)) ∧
    ∀ f condition body,
      Erases (rounds fuel f condition body) (ScopeScript.rounds fuel f condition body) := by
  induction fuel with
  | zero => exact ⟨fun _ _ => .throw _, fun _ _ => .throw _, fun _ _ _ => .throw _⟩
  | succ fuel ih =>
    obtain ⟨values, runs, loops⟩ := ih
    exact ⟨evaluate_erases_succ values runs, execute_erases_succ values runs loops,
      rounds_erases_succ values runs loops⟩

theorem interpret_erases (fuel : Nat) (program : List Stmt) :
    Erases (interpret fuel program) (ScopeScript.interpret fuel program) := by
  have statements : Erases (runProgram fuel program) (ScopeScript.runProgram fuel program) := by
    induction program with
    | nil => exact .pure ()
    | cons s rest ih =>
      apply ((evaluation_erases fuel).2.1 globalFrame s).bind
      intro flow
      cases flow with
      | normal => exact ih
      | returned v => exact .throw _
  exact statements.bind fun _ => .lift _

/-! Nothing is left out. -/

theorem bind_cases (p : Step α) (q : α → Step β) (t : Watch) :
    (∃ a t₁, p t = .ok a t₁ ∧ (p >>= q) t = q a t₁) ∨
      ∃ stop t₁, p t = .error stop t₁ ∧ (p >>= q) t = .error stop t₁ := by
  simp only [Bind.bind, EStateM.bind]
  cases p t with
  | ok a t₁ => exact .inl ⟨a, t₁, rfl, rfl⟩
  | error stop t₁ => exact .inr ⟨stop, t₁, rfl, rfl⟩

theorem bind_eq_ok {p : Step α} {q : α → Step β} {t t' : Watch} {b : β}
    (ran : (p >>= q) t = .ok b t') : ∃ a t₁, p t = .ok a t₁ ∧ q a t₁ = .ok b t' := by
  rcases bind_cases p q t with ⟨a, t₁, first, next⟩ | ⟨stop, t₁, _, failed⟩
  · exact ⟨a, t₁, first, next ▸ ran⟩
  · rw [failed] at ran
    contradiction

/-- How the log tells of a result. -/
def Tells (event : Option α → Event) : EStateM.Result Stop Watch α → Prop
  | .ok a t => event (some a) ∈ t.log
  | .error _ t => event none ∈ t.log

theorem tells_told (p : Eval α) (event : Option α → Event) (t : Watch) :
    Tells event (told p event t) := by
  unfold told
  cases p t.machine <;> exact List.mem_append_right _ List.mem_cons_self

/-- A method that is bound to an object has a frame in that role. -/
theorem role_of_bindMethod {method c : Closure} {object : ObjectId} {t t' : Watch}
    (size : t.roles.size = t.machine.store.frames.size)
    (ran : bindMethod method object t = .ok c t') : t'.role c.scope = .bound object := by
  cases ran
  simp [role, Store.nextFrame, ← size]

/-- Watching misses nothing that matters to a receiver. -/
structure Complete : Prop where
  /-- What was told stays told. -/
  kept : ∀ (fuel : Nat) (f : FrameId) (t : Watch),
    (∀ e, t.log <+: (behind (evaluate fuel f e t)).log) ∧
      ∀ s, t.log <+: (behind (execute fuel f s t)).log
  /-- A method that is looked up on an object, whose fields come first, is bound to it. -/
  looked : ∀ {object : ObjectId} {name : Lexeme} {t t' : Watch} {v : Value},
    t.roles.size = t.machine.store.frames.size → readProperty object name t = .ok v t' →
      (t.machine.objects[object]?).bind (·.fields.get? name.text) = some v ∨
        ∃ c, v = .callable (.function c) ∧ t'.role c.scope = .bound object
  /-- All that is written is told. -/
  wrote : ∀ {f : FrameId} {name : String} {v : Value} {t t' : Watch},
    define f name v t = .ok () t' → .wrote (t.role f) ∈ t'.log
  /-- Every `this` is told, also if it fails. -/
  this : ∀ (fuel : Nat) (f : FrameId) (id : ExprId) (keyword : Lexeme) (t : Watch),
    Tells (.this (t.role f).receiver?) (evaluate (fuel + 1) f (.this id keyword) t)
  /-- Every call of an initializer is told, unless its body fails. -/
  initialized : ∀ (run : FrameId → Stmt → Step Flow) (c : Closure) (arguments : List Value)
    (t : Watch), c.isInit = true →
      Tells (.initialized (t.role c.scope).receiver?) (callClosure run c arguments t) ∨
        ∃ frame t₁ stop t₂, runEach (run frame) c.declaration.body t₁ = .error stop t₂ ∧
          callClosure run c arguments t = .error stop t₂
  /-- Every call of a class is told, unless its initializer fails. -/
  constructed : ∀ (run : FrameId → Stmt → Step Flow) (c : Class) (arguments : List Value)
    (t : Watch), (∃ v t₁, construct run c arguments t = .ok v t₁ ∧
      .constructed c t.machine.objects.size v ∈ t₁.log) ∨
    ∃ method bound t₁ stop t₂, c.method? initName = some method ∧
      callClosure run bound arguments t₁ = .error stop t₂ ∧
      construct run c arguments t = .error stop t₂

theorem complete : Complete where
  kept fuel f t := by
    obtain ⟨values, runs, _⟩ := evaluation_erases fuel
    exact ⟨fun e => (values f e).log t, fun s => (runs f s).log t⟩
  looked := by
    intro object name t t' v size ran
    obtain ⟨_, _, ⟨⟩, ran⟩ := bind_eq_ok ran
    cases field : (t.machine.objects[object]?).bind (·.fields.get? name.text) with
    | some u =>
      rw [field] at ran
      cases ran
      exact .inl rfl
    | none =>
      rw [field] at ran
      cases method : (t.machine.objects[object]?).bind (·.origin.method? name.text) with
      | none =>
        rw [method] at ran
        contradiction
      | some f =>
        rw [method] at ran
        obtain ⟨c, t₁, made, ⟨⟩⟩ := bind_eq_ok ran
        exact .inr ⟨c, rfl, role_of_bindMethod size made⟩
  wrote := by
    intro f name v t t' ran
    cases ran
    exact List.mem_append_right _ List.mem_cons_self
  this fuel f id keyword t := by
    rw [evaluate]
    exact tells_told _ _ t
  initialized run c arguments t isInit := by
    obtain ⟨frame, t₁, step⟩ : ∃ frame t₁, callClosure run c arguments t =
        (runEach (run frame) c.declaration.body >>= fun _ =>
          told (do Eval.orFault ((← get).store.getAt c.scope 0 thisName))
            (.initialized (t.role c.scope).receiver?)) t₁ := by
      simp only [callClosure, isInit, if_true]
      exact ⟨_, _, rfl⟩
    rw [step]
    rcases bind_cases (runEach (run frame) c.declaration.body) _ t₁ with
      ⟨flow, t₂, _, ended⟩ | ⟨stop, t₂, failed, ended⟩
    · left
      rw [ended]
      exact tells_told _ _ t₂
    · right
      exact ⟨frame, t₁, stop, t₂, failed, ended⟩
  constructed run c arguments t := by
    cases found : c.method? initName with
    | none =>
      left
      simp only [construct, found]
      exact ⟨_, _, rfl, List.mem_append_right _ List.mem_cons_self⟩
    | some method =>
      obtain ⟨bound, t₁, step⟩ : ∃ bound t₁, construct run c arguments t =
          (callClosure run bound arguments >>= fun _ => do
            record (.constructed c t.machine.objects.size (.object t.machine.objects.size))
            return .object t.machine.objects.size) t₁ := by
        simp only [construct, found]
        exact ⟨_, _, rfl⟩
      rw [step]
      rcases bind_cases (callClosure run bound arguments) _ t₁ with
        ⟨v, t₂, _, ended⟩ | ⟨stop, t₂, failed, ended⟩
      · left
        rw [ended]
        exact ⟨_, _, rfl, List.mem_append_right _ List.mem_cons_self⟩
      · right
        exact ⟨method, bound, t₁, stop, t₂, rfl, failed, ended⟩

end Watch

/-! Sessions that are watched. -/

structure WatchedSession where
  watch : Watch
  nextId : ExprId := 0

namespace WatchedSession

def start (sink : Sink) (clock : Clock) : WatchedSession where
  watch := .start sink clock

def session (s : WatchedSession) : Session := ⟨s.watch.machine, s.nextId⟩

/-- The session behind one input. -/
def answer (s : WatchedSession) : Input → WatchedSession
  | .parse source => { s with nextId := (parseSource s.nextId source).2 }
  | .run fuel source =>
    match checkSource s.watch.machine.globalNames s.nextId source with
    | (.error _, nextId) => { s with nextId }
    | (.ok checked, nextId) =>
      let ready := { s.watch with machine := s.watch.machine.note checked.entries }
      ⟨Watch.behind (Watch.interpret fuel checked.program ready), nextId⟩

/-- The session behind a history. -/
def after (s : WatchedSession) : List Input → WatchedSession
  | [] => s
  | input :: rest => (s.answer input).after rest

theorem answer_session (s : WatchedSession) (input : Input) :
    (s.answer input).session = (s.session.answer input).2 := by
  cases input with
  | parse source => rfl
  | run fuel source =>
    rw [Session.answer_run, answer, Session.run, Session.check]
    simp only [session]
    cases checkSource s.watch.machine.globalNames s.nextId source with
    | mk result next =>
      cases result with
      | error errors => rfl
      | ok checked =>
        dsimp only
        rw [← (Watch.interpret_erases fuel checked.program).machine
          { s.watch with machine := s.watch.machine.note checked.entries }]
        cases Watch.interpret fuel checked.program
          { s.watch with machine := s.watch.machine.note checked.entries } <;> rfl

theorem after_session (s : WatchedSession) (history : List Input) :
    (s.after history).session = s.session.after history := by
  induction history generalizing s with
  | nil => rfl
  | cons input rest ih => rw [after, ih, answer_session, Session.after]

/-- What was told stays told. -/
theorem answer_log (s : WatchedSession) (input : Input) :
    s.watch.log <+: (s.answer input).watch.log := by
  cases input with
  | parse source => exact List.prefix_refl _
  | run fuel source =>
    rw [answer]
    cases checkSource s.watch.machine.globalNames s.nextId source with
    | mk result next =>
      cases result with
      | error errors => exact List.prefix_refl _
      | ok checked =>
        exact (Watch.interpret_erases fuel checked.program).log
          { s.watch with machine := s.watch.machine.note checked.entries }

theorem after_log (s : WatchedSession) (history : List Input) :
    s.watch.log <+: (s.after history).watch.log := by
  induction history generalizing s with
  | nil => exact List.prefix_refl _
  | cons input rest ih => exact (s.answer_log input).trans (ih (s.answer input))

theorem after_append (s : WatchedSession) (history more : List Input) :
    s.after (history ++ more) = (s.after history).after more := by
  induction history generalizing s with
  | nil => rfl
  | cons input rest ih => exact ih (s.answer input)

end WatchedSession
end ScopeScript
