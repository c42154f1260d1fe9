import ScopeScript.Machine.Evaluate

/-! Evaluation with a current frame. Here the frame that code runs in is part of the state: a block
and a call make another frame current and put the frame before it back when they are left. This is
the same evaluation as the one that passes the frame along, and unless it breaks off in a fault, the
frame is back on every way out. -/
namespace ScopeScript

/-- A machine with the frame that code runs in and the frame of global names. -/
structure Focus where
  machine : Machine
  current : FrameId
  globals : FrameId

/-- Whether a run breaks off where it is, without leaving the blocks and calls it is in. -/
def Stop.breaksOff : Stop → Bool
  | error _ | output _ => false
  | fault _ | exhausted => true

namespace Focus
variable {α β : Type}

abbrev Step := EStateM Stop Focus

/-- A step of the machine alone. -/
def lift (p : Eval α) : Step α := fun r =>
  match p r.machine with
  | .ok a m => .ok a { r with machine := m }
  | .error stop m => .error stop { r with machine := m }

def fail (cause : RuntimeCause) (l : Lexeme) : Step α := lift (Eval.fail cause l)

/-- Runs a step inside a frame and puts the frame before it back on every way out. -/
def within (frame : FrameId) (p : Step α) : Step α := fun r =>
  match p { r with current := frame } with
  | .ok a r' => .ok a { r' with current := r.current }
  | .error stop r' =>
    if stop.breaksOff then .error stop r' else .error stop { r' with current := r.current }

/-- Binds a name in the current frame. -/
def define (name : String) (value : Value) : Step Unit := do
  lift (Eval.define (← get).current name value)

/-- Reads a name from the current frame at a noted distance, or else from the global frame. -/
def readName (id : ExprId) (name : Lexeme) : Step Value := do
  let r ← get
  match r.machine.distances.get? id with
  | some distance => lift (Eval.orFault (r.machine.store.getAt r.current distance name.text))
  | none =>
    match r.machine.store.get? r.globals name.text with
    | some v => return v
    | none => fail (.undefinedVariable name.text) name

def ownerOf (id : ExprId) (name : Lexeme) : Step FrameId := do
  let r ← get
  match r.machine.distances.get? id with
  | some distance => lift (Eval.orFault (r.machine.store.ownerAt r.current distance name.text))
  | none =>
    match r.machine.store.owner? r.globals name.text with
    | some owner => return owner
    | none => fail (.undefinedVariable name.text) name

def writeName (id : ExprId) (name : Lexeme) (value : Value) : Step Unit := do
  let owner ← ownerOf id name
  lift (Eval.define owner name.text value)

def runEach (run : Stmt → Step Flow) : List Stmt → Step Flow
  | [] => return .normal
  | s :: rest => do
    match ← run s with
    | .normal => runEach run rest
    | .returned v => return .returned v

def valueEach (value : Expr → Step Value) : List Expr → Step (List Value)
  | [] => return []
  | e :: rest => do
    let v ← value e
    return v :: (← valueEach value rest)

/-- The new frame hangs off the frame of the closure and not off the current one. -/
def callClosure (run : Stmt → Step Flow) (f : Closure) (arguments : List Value) : Step Value := do
  let params := f.declaration.params.map (·.text)
  let frame ← lift (Eval.newFrame
    { bindings := .ofList (params.zip arguments), enclosing := some f.scope })
  let flow ← within frame (runEach run f.declaration.body)
  if f.isInit then
    lift (Eval.orFault ((← get).machine.store.getAt f.scope 0 thisName))
  else
    match flow with
    | .normal => return .nil
    | .returned v => return v

def construct (run : Stmt → Step Flow) (c : Class) (arguments : List Value) : Step Value := do
  let object ← lift (Eval.newObject c)
  match c.method? initName with
  | none => return .object object
  | some method => do
    let bound ← lift (Eval.bindMethod method object)
    let _ ← callClosure run bound arguments
    return .object object

def enter (run : Stmt → Step Flow) (arguments : List Value) : Callable → Step Value
  | .native .clock => return .number (← lift Eval.readClock)
  | .function f => callClosure run f arguments
  | .ofClass c => construct run c arguments

def call (run : Stmt → Step Flow) (callee : Value) (arguments : List Value) (closing : Lexeme) :
    Step Value := do
  match callee with
  | .callable f =>
    if arguments.length = f.arity then enter run arguments f
    else fail (.wrongArity f.arity arguments.length) closing
  | _ => fail .notCallable closing

def superclassOf : Option Superclass → Step (Option Class)
  | none => return none
  | some s => do
    match ← readName s.id s.name with
    | .callable (.ofClass c) => return some c
    | _ => fail .superclassNotClass s.name

def declareClass (name : Lexeme) (superclass : Option Superclass) (methods : List FunctionDecl) :
    Step Unit := do
  define name.text .nil
  let parent ← superclassOf superclass
  let methods := Eval.methodTable (← get).current methods
  define name.text (.callable (.ofClass (.mk name.text parent methods)))

mutual

/-- The value of an expression in the current frame. -/
def evaluate : (fuel : Nat) → Expr → Step Value
  | 0, _ => throw .exhausted
  | fuel + 1, e =>
    match e with
    | .literal _ value => return value.value
    | .group _ inner => evaluate fuel inner
    | .var id name | .this id name => readName id name
    | .assign id name value => do
      let v ← evaluate fuel value
      writeName id name v
      return v
    | .unary _ op sign operand => do
      let v ← evaluate fuel operand
      lift (Eval.orFail sign (op.apply v))
    | .binary _ op sign left right => do
      let a ← evaluate fuel left
      let b ← evaluate fuel right
      lift (Eval.orFail sign (op.apply a b))
    | .logical _ op _ left right => do
      let v ← evaluate fuel left
      if op.decides v then return v else evaluate fuel right
    | .call _ callee arguments closing => do
      let f ← evaluate fuel callee
      let vs ← valueEach (evaluate fuel) arguments
      call (execute fuel) f vs closing
    | .get _ object property => do
      match ← evaluate fuel object with
      | .object id => lift (Eval.readProperty id property)
      | _ => fail .noProperties property
    | .set _ object property value => do
      match ← evaluate fuel object with
      | .object id => do
        let v ← evaluate fuel value
        lift (Eval.setField id property.text v)
        return v
      | _ => fail .noFields property

/-- Runs a statement in the current frame. -/
def execute : (fuel : Nat) → Stmt → Step Flow
  | 0, _ => throw .exhausted
  | fuel + 1, s =>
    match s with
    | .expression value => do
      let _ ← evaluate fuel value
      return .normal
    | .print value => do
      lift (Eval.print (← evaluate fuel value))
      return .normal
    | .var name initial => do
      let v ← match initial with
        | none => pure .nil
        | some e => evaluate fuel e
      define name.text v
      return .normal
    | .block body => do
      let inner ← lift (Eval.newFrame { enclosing := some (← get).current })
      within inner (runEach (execute fuel) body)
    | .ifThen condition yes => do
      if (← evaluate fuel condition).truthy then execute fuel yes
      else return .normal
    | .ifElse condition yes no => do
      if (← evaluate fuel condition).truthy then execute fuel yes
      else execute fuel no
    | .whileLoop condition body => rounds fuel condition body
    | .function declaration => do
      let f : Closure := ⟨declaration, (← get).current, false⟩
      define declaration.name.text (.callable (.function f))
      return .normal
    | .returns _ value => do
      let v ← match value with
        | none => pure .nil
        | some e => evaluate fuel e
      return .returned v
    | .classDecl name superclass methods => do
      declareClass name superclass methods
      return .normal

def rounds : (fuel : Nat) → Expr → Stmt → Step Flow
  | 0, _, _ => throw .exhausted
  | fuel + 1, condition, body => do
    if (← evaluate fuel condition).truthy then
      match ← execute fuel body with
      | .normal => rounds fuel condition body
      | .returned v => return .returned v
    else
      return .normal

end

/-- Runs a program's statements in the current frame, whichever it is. -/
def runProgram (fuel : Nat) : List Stmt → Step Unit
  | [] => return ()
  | s :: rest => do
    match ← execute fuel s with
    | .normal => runProgram fuel rest
    | .returned _ => throw (.fault .topLevelReturn)

def interpret (fuel : Nat) (program : List Stmt) : Step Unit := do
  runProgram fuel program
  lift Eval.flush

/-! The two evaluations side by side. -/

/-- Results that are the same but for the frames. These are what they were before, unless the run
broke off. -/
inductive Agrees (r : Focus) : EStateM.Result Stop Focus α → EStateM.Result Stop Machine α → Prop
  | ok (a : α) (m : Machine) : Agrees r (.ok a { r with machine := m }) (.ok a m)
  | stopped (stop : Stop) (m : Machine) :
    Agrees r (.error stop { r with machine := m }) (.error stop m)
  | brokeOff {stop : Stop} (off : stop.breaksOff = true) (r' : Focus) :
    Agrees r (.error stop r') (.error stop r'.machine)

/-- The machine at the start of a step does not matter for its end. -/
theorem Agrees.earlier {r : Focus} {m : Machine} {left : EStateM.Result Stop Focus α}
    {right : EStateM.Result Stop Machine α} (agrees : Agrees { r with machine := m } left right) :
    Agrees r left right := by
  cases agrees with
  | ok a m => exact .ok a m
  | stopped stop m => exact .stopped stop m
  | brokeOff off r' => exact .brokeOff off r'

/-- A step that does in the current frame what the other does in the frame it is given. -/
def Follows (p : Step α) (q : FrameId → Eval α) : Prop :=
  ∀ r : Focus, r.globals = globalFrame → Agrees r (p r) (q r.current r.machine)

namespace Follows
variable {p : Step α} {q : FrameId → Eval α}

theorem lift (q : Eval α) : Follows (lift q) fun _ => q := by
  intro r _
  show Agrees r (Focus.lift q r) (q r.machine)
  unfold Focus.lift
  cases q r.machine with
  | ok a m => exact .ok a m
  | error stop m => exact .stopped stop m

theorem pure (a : α) : Follows (Pure.pure a) fun _ => Pure.pure a := fun r _ => .ok a r.machine

theorem throw (stop : Stop) : Follows (MonadExcept.throw stop : Step α) fun _ =>
    MonadExcept.throw stop :=
  fun r _ => .stopped stop r.machine

theorem fail (cause : RuntimeCause) (l : Lexeme) :
    Follows (fail cause l : Step α) fun _ => Eval.fail cause l :=
  .lift _

theorem bind {f : α → Step β} {g : FrameId → α → Eval β} (first : Follows p q)
    (next : ∀ a, Follows (f a) fun frame => g frame a) :
    Follows (p >>= f) fun frame => q frame >>= g frame := by
  intro r global
  have here := first r global
  simp only [Bind.bind, EStateM.bind]
  generalize p r = left at here ⊢
  generalize q r.current r.machine = right at here ⊢
  cases here with
  | ok a m => exact (next a { r with machine := m } global).earlier
  | stopped stop m => exact .stopped stop m
  | brokeOff off r' => exact .brokeOff off r'

/-- What follows the look at a state may depend on all of it. -/
theorem get {f : Focus → Step α} {g : FrameId → Machine → Eval α}
    (next : ∀ r : Focus, r.globals = globalFrame →
      Agrees r (f r r) (g r.current r.machine r.machine)) :
    Follows (MonadState.get >>= f) fun frame => MonadState.get >>= g frame :=
  next

/-- The frame before it is back behind a step inside another frame. -/
theorem within (inside : Follows p q) (frame : FrameId) :
    Follows (within frame p) fun _ => q frame := by
  intro r global
  have here := inside { r with current := frame } global
  show Agrees r (Focus.within frame p r) (q frame r.machine)
  unfold Focus.within
  dsimp only at here
  generalize p { r with current := frame } = left at here ⊢
  generalize q frame r.machine = right at here ⊢
  cases here with
  | ok a m => exact .ok a m
  | stopped stop m =>
    dsimp only
    -- a fault that comes from outside any inner block is not caught here either
    cases off : stop.breaksOff with
    | true => exact .brokeOff off _
    | false => exact .stopped stop m
  | brokeOff off r' =>
    dsimp only
    rw [if_pos off]
    exact .brokeOff off r'

theorem define (name : String) (value : Value) :
    Follows (define name value) fun frame => Eval.define frame name value :=
  fun r global => Follows.lift (Eval.define r.current name value) r global

/-- Names are read alike if the global frame is where the machine has it. -/
theorem readName (id : ExprId) (name : Lexeme) :
    Follows (readName id name) fun frame => Eval.readName frame id name := by
  unfold Focus.readName Eval.readName
  refine Follows.get fun r global => ?_
  rw [global]
  cases r.machine.distances.get? id with
  | some distance => exact Follows.lift (Eval.orFault _) r global
  | none =>
    dsimp only
    cases r.machine.store.get? globalFrame name.text with
    | some v => exact Follows.pure v r global
    | none => exact Follows.fail _ name r global

theorem ownerOf (id : ExprId) (name : Lexeme) :
    Follows (ownerOf id name) fun frame => Eval.ownerOf frame id name := by
  unfold Focus.ownerOf Eval.ownerOf
  refine Follows.get fun r global => ?_
  rw [global]
  cases r.machine.distances.get? id with
  | some distance => exact Follows.lift (Eval.orFault _) r global
  | none =>
    dsimp only
    cases r.machine.store.owner? globalFrame name.text with
    | some owner => exact Follows.pure owner r global
    | none => exact Follows.fail _ name r global

theorem writeName (id : ExprId) (name : Lexeme) (value : Value) :
    Follows (writeName id name value) fun frame => Eval.writeName frame id name value :=
  (Follows.ownerOf id name).bind fun _ => .lift _

theorem superclassOf (superclass : Option Superclass) :
    Follows (superclassOf superclass) fun frame => Eval.superclassOf frame superclass := by
  cases superclass with
  | none => exact .pure none
  | some s =>
    apply (Follows.readName s.id s.name).bind
    intro v
    cases v with
    | number _ | string _ | boolean _ | nil | object _ => exact .fail _ s.name
    | callable f =>
      cases f with
      | native _ | function _ => exact .fail _ s.name
      | ofClass c => exact .pure _

theorem declareClass (name : Lexeme) (superclass : Option Superclass)
    (methods : List FunctionDecl) :
    Follows (declareClass name superclass methods) fun frame =>
      Eval.declareClass frame name superclass methods := by
  apply (Follows.define name.text Value.nil).bind
  intro _
  apply (Follows.superclassOf superclass).bind
  intro parent r global
  exact Follows.define name.text _ r global

theorem valueEach {value : Expr → Step Value} {value' : FrameId → Expr → Eval Value}
    (values : ∀ e, Follows (value e) fun frame => value' frame e) (es : List Expr) :
    Follows (valueEach value es) fun frame => Eval.valueEach (value' frame) es := by
  induction es with
  | nil => exact .pure []
  | cons e rest ih => exact (values e).bind fun v => ih.bind fun vs => .pure (v :: vs)

variable {run : Stmt → Step Flow} {run' : FrameId → Stmt → Eval Flow}
  (runs : ∀ s, Follows (run s) fun frame => run' frame s)
include runs

theorem runEach (body : List Stmt) :
    Follows (runEach run body) fun frame => Eval.runEach (run' frame) body := by
  induction body with
  | nil => exact .pure _
  | cons s rest ih =>
    apply (runs s).bind
    intro flow
    cases flow with
    | normal => exact ih
    | returned v => exact .pure _

theorem callClosure (f : Closure) (arguments : List Value) :
    Follows (callClosure run f arguments) fun _ => Eval.callClosure run' f arguments := by
  apply (Follows.lift _).bind
  intro frame
  apply ((Follows.runEach runs f.declaration.body).within frame).bind
  intro flow
  cases f.isInit with
  | true =>
    intro r global
    exact Follows.lift (Eval.orFault (r.machine.store.getAt f.scope 0 thisName)) r global
  | false =>
    cases flow with
    | normal => exact .pure _
    | returned v => exact .pure v

theorem construct (c : Class) (arguments : List Value) :
    Follows (construct run c arguments) fun _ => Eval.construct run' c arguments := by
  apply (Follows.lift _).bind
  intro object
  cases c.method? initName with
  | none => exact .pure _
  | some method =>
    apply (Follows.lift _).bind
    intro bound
    exact (Follows.callClosure runs bound arguments).bind fun _ => .pure _

theorem call (callee : Value) (arguments : List Value) (closing : Lexeme) :
    Follows (call run callee arguments closing) fun _ =>
      Eval.call run' callee arguments closing := by
  unfold Focus.call Eval.call
  cases callee with
  | number _ | string _ | boolean _ | nil | object _ => exact .fail _ closing
  | callable f =>
    by_cases arity : arguments.length = f.arity
    · simp only [if_pos arity]
      cases f with
      | native f => exact (Follows.lift _).bind fun reading => .pure _
      | function f => exact Follows.callClosure runs f arguments
      | ofClass c => exact Follows.construct runs c arguments
    · simp only [if_neg arity]
      exact .fail _ closing

end Follows

section
variable {fuel : Nat}
  (values : ∀ e, Follows (evaluate fuel e) fun f => ScopeScript.evaluate fuel f e)
  (runs : ∀ s, Follows (execute fuel s) fun f => ScopeScript.execute fuel f s)
  (loops : ∀ condition body, Follows (rounds fuel condition body) fun f =>
    ScopeScript.rounds fuel f condition body)
include values runs

theorem evaluate_follows (e : Expr) :
    Follows (evaluate (fuel + 1) e) fun f => ScopeScript.evaluate (fuel + 1) f e := by
  unfold Focus.evaluate ScopeScript.evaluate
  cases e with
  | literal id value => exact .pure value.value
  | group id inner => exact values inner
  | var id name | this id name => exact .readName id name
  | assign id name value =>
    exact (values value).bind fun v => (Follows.writeName id name v).bind fun _ => .pure v
  | unary id op sign operand => exact (values operand).bind fun v => .lift _
  | binary id op sign left right =>
    exact (values left).bind fun a => (values right).bind fun b => .lift _
  | logical id op sign left right =>
    apply (values left).bind
    intro v
    cases op.decides v with
    | true => exact .pure v
    | false => exact values right
  | call id callee arguments closing =>
    apply (values callee).bind
    intro f
    exact (Follows.valueEach values arguments).bind fun vs => .call runs f vs closing
  | get id object property =>
    apply (values object).bind
    intro v
    cases v with
    | object i => exact .lift _
    | number _ | string _ | boolean _ | nil | callable _ => exact .fail _ property
  | set id object property value =>
    apply (values object).bind
    intro v
    cases v with
    | object i => exact (values value).bind fun v => (Follows.lift _).bind fun _ => .pure v
    | number _ | string _ | boolean _ | nil | callable _ => exact .fail _ property

include loops

theorem execute_follows (s : Stmt) :
    Follows (execute (fuel + 1) s) fun f => ScopeScript.execute (fuel + 1) f s := by
  unfold Focus.execute ScopeScript.execute
  cases s with
  | expression value => exact (values value).bind fun _ => .pure _
  | print value =>
    exact (values value).bind fun v => (Follows.lift _).bind fun _ => .pure _
  | var name initial =>
    cases initial with
    | none => exact (Follows.define name.text Value.nil).bind fun _ => .pure _
    | some e =>
      exact (values e).bind fun v => (Follows.define name.text v).bind fun _ => .pure _
  | block body =>
    intro r global
    have opened := (Follows.lift (Eval.newFrame { enclosing := some r.current })).bind
      fun inner => (Follows.runEach runs body).within inner
    exact opened r global
  | ifThen condition yes =>
    apply (values condition).bind
    intro v
    cases v.truthy with
    | true => exact runs yes
    | false => exact .pure _
  | ifElse condition yes no =>
    apply (values condition).bind
    intro v
    cases v.truthy with
    | true => exact runs yes
    | false => exact runs no
  | whileLoop condition body => exact loops condition body
  | function declaration =>
    intro r global
    exact (Follows.define _ _).bind (fun _ => Follows.pure _) r global
  | returns keyword value =>
    cases value with
    | none => exact .pure _
    | some e => exact (values e).bind fun v => .pure _
  | classDecl name superclass methods =>
    exact (Follows.declareClass name superclass methods).bind fun _ => .pure _

theorem rounds_follows (condition : Expr) (body : Stmt) :
    Follows (rounds (fuel + 1) condition body) fun f =>
      ScopeScript.rounds (fuel + 1) f condition body := by
  unfold Focus.rounds ScopeScript.rounds
  apply (values condition).bind
  intro v
  cases v.truthy with
  | true =>
    apply (runs body).bind
    intro flow
    cases flow with
    | normal => exact loops condition body
    | returned v => exact .pure _
  | false => exact .pure _

end

/-- With every amount of fuel the two evaluations are the same. -/
theorem evaluation_follows (fuel : Nat) :
    (∀ e, Follows (evaluate fuel e) fun f => ScopeScript.evaluate fuel f e) ∧
    (∀ s, Follows (execute fuel s) fun f => ScopeScript.execute fuel f s) ∧
    ∀ condition body, Follows (rounds fuel condition body) fun f =>
      ScopeScript.rounds fuel f condition body := by
  induction fuel with
  | zero => exact ⟨fun _ => .throw _, fun _ => .throw _, fun _ _ => .throw _⟩
  | succ fuel ih =>
    obtain ⟨values, runs, loops⟩ := ih
    exact ⟨evaluate_follows values runs, execute_follows values runs loops,
      rounds_follows values runs loops⟩

/-- A program starts in the global frame, and so does every statement of it. -/
theorem runProgram_agrees (fuel : Nat) (program : List Stmt) {r : Focus}
    (global : r.globals = globalFrame) (top : r.current = globalFrame) :
    Agrees r (runProgram fuel program r) (ScopeScript.runProgram fuel program r.machine) := by
  induction program generalizing r with
  | nil => exact .ok () r.machine
  | cons s rest ih =>
    have here : Agrees r (execute fuel s r) (ScopeScript.execute fuel globalFrame s r.machine) := by
      rw [← top]
      exact (evaluation_follows fuel).2.1 s r global
    simp only [runProgram, ScopeScript.runProgram, Bind.bind, EStateM.bind]
    generalize execute fuel s r = left at here ⊢
    generalize ScopeScript.execute fuel globalFrame s r.machine = right at here ⊢
    cases here with
    | stopped stop m => exact .stopped stop m
    | brokeOff off r' => exact .brokeOff off r'
    | ok flow m =>
      cases flow with
      | normal => exact (ih (r := { r with machine := m }) global top).earlier
      | returned v => exact .stopped _ m

theorem interpret_agrees (fuel : Nat) (program : List Stmt) {r : Focus}
    (global : r.globals = globalFrame) (top : r.current = globalFrame) :
    Agrees r (interpret fuel program r) (ScopeScript.interpret fuel program r.machine) := by
  have here := runProgram_agrees fuel program global top
  simp only [interpret, ScopeScript.interpret, Bind.bind, EStateM.bind]
  generalize runProgram fuel program r = left at here ⊢
  generalize ScopeScript.runProgram fuel program r.machine = right at here ⊢
  cases here with
  | stopped stop m => exact .stopped stop m
  | brokeOff off r' => exact .brokeOff off r'
  | ok _ m => exact (Follows.lift Eval.flush { r with machine := m } global).earlier

end Focus
end ScopeScript
