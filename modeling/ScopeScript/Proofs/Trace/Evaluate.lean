import ScopeScript.Machine.Evaluate

/-! Evaluation that tells of its moments. A moment is what code is about to do, with the machine as
it is then. A step tells of its moments in the order in which they come, up to the point where it
stops. -/
namespace ScopeScript

inductive Act where
  /-- An expression is about to be evaluated in a frame. -/
  | value (frame : FrameId) (e : Expr)
  /-- A statement is about to be run in a frame. -/
  | statement (frame : FrameId) (s : Stmt)
  /-- The body of a function is about to be run in a new frame that its arguments are bound in. -/
  | enter (f : Closure) (arguments : List Value) (frame : FrameId)
  /-- A value is about to be written to the sink. -/
  | print (value : Value)
  /-- A field is about to be set. -/
  | set (object : ObjectId) (name : String) (value : Value)

/-- Printing and setting a field are told just before they are done. All else only begins. -/
def Act.begins : Act → Bool
  | value _ _ | statement _ _ | enter _ _ _ => true
  | print _ | set _ _ _ => false

structure Moment where
  act : Act
  machine : Machine

/-- A step on the machine with the moments it passes. -/
structure Traced (α : Type) where
  step : Eval α
  moments : Machine → List Moment

namespace Traced
variable {α β : Type}

def lift (p : Eval α) : Traced α := ⟨p, fun _ => []⟩

def mark (act : Act) : Traced Unit := ⟨return (), fun m => [⟨act, m⟩]⟩

/-- One step behind another, which is not come to if the first one stops. -/
def andThen (p : Traced α) (next : α → Traced β) : Traced β where
  step := p.step >>= fun a => (next a).step
  moments m := p.moments m ++
    match p.step m with
    | .ok a m => (next a).moments m
    | .error _ _ => []

instance : Monad Traced where
  pure a := lift (pure a)
  bind := andThen

theorem moments_bind (p : Traced α) (f : α → Traced β) (m : Machine) :
    (p >>= f).moments m = p.moments m ++
      match p.step m with
      | .ok a m => (f a).moments m
      | .error _ _ => [] := rfl

theorem step_bind (p : Traced α) (f : α → Traced β) (m : Machine) :
    (p >>= f).step m =
      match p.step m with
      | .ok a m => (f a).step m
      | .error stop m => .error stop m := by
  change EStateM.bind p.step (fun a => (f a).step) m = _
  rw [EStateM.bind]
  cases p.step m <;> rfl

def fail (cause : RuntimeCause) (l : Lexeme) : Traced α := lift (Eval.fail cause l)

def print (value : Value) : Traced Unit := do
  mark (.print value)
  lift (Eval.print value)

def setField (object : ObjectId) (name : String) (value : Value) : Traced Unit := do
  mark (.set object name value)
  lift (Eval.setField object name value)

def runEach (run : Stmt → Traced Flow) : List Stmt → Traced Flow
  | [] => return .normal
  | s :: rest => do
    match ← run s with
    | .normal => runEach run rest
    | .returned v => return .returned v

def valueEach (value : Expr → Traced Value) : List Expr → Traced (List Value)
  | [] => return []
  | e :: rest => do
    let v ← value e
    return v :: (← valueEach value rest)

def callClosure (run : FrameId → Stmt → Traced Flow) (f : Closure) (arguments : List Value) :
    Traced Value := do
  let params := f.declaration.params.map (·.text)
  let frame ← lift (Eval.newFrame
    { bindings := .ofList (params.zip arguments), enclosing := some f.scope })
  mark (.enter f arguments frame)
  let flow ← runEach (run frame) f.declaration.body
  if f.isInit then
    lift (do Eval.orFault ((← get).store.getAt f.scope 0 thisName))
  else
    match flow with
    | .normal => return .nil
    | .returned v => return v

def construct (run : FrameId → Stmt → Traced Flow) (c : Class) (arguments : List Value) :
    Traced Value := do
  let object ← lift (Eval.newObject c)
  match c.method? initName with
  | none => return .object object
  | some method => do
    let bound ← lift (Eval.bindMethod method object)
    let _ ← callClosure run bound arguments
    return .object object

def enter (run : FrameId → Stmt → Traced Flow) (arguments : List Value) : Callable → Traced Value
  | .native .clock => return .number (← lift Eval.readClock)
  | .function f => callClosure run f arguments
  | .ofClass c => construct run c arguments

def call (run : FrameId → Stmt → Traced Flow) (callee : Value) (arguments : List Value)
    (closing : Lexeme) : Traced Value := do
  match callee with
  | .callable f =>
    if arguments.length = f.arity then enter run arguments f
    else fail (.wrongArity f.arity arguments.length) closing
  | _ => fail .notCallable closing

mutual

/-- The value of an expression in a frame. -/
def evaluate : (fuel : Nat) → FrameId → Expr → Traced Value
  | 0, _, _ => lift (throw .exhausted)
  | fuel + 1, frame, e => do
    mark (.value frame e)
    match e with
    | .literal _ value => return value.value
    | .group _ inner => evaluate fuel frame inner
    | .var id name | .this id name => lift (Eval.readName frame id name)
    | .assign id name value => do
      let v ← evaluate fuel frame value
      lift (Eval.writeName frame id name v)
      return v
    | .unary _ op sign operand => do
      let v ← evaluate fuel frame operand
      lift (Eval.orFail sign (op.apply v))
    | .binary _ op sign left right => do
      let a ← evaluate fuel frame left
      let b ← evaluate fuel frame right
      lift (Eval.orFail sign (op.apply a b))
    | .logical _ op _ left right => do
      let v ← evaluate fuel frame left
      if op.decides v then return v else evaluate fuel frame right
    | .call _ callee arguments closing => do
      let f ← evaluate fuel frame callee
      let vs ← valueEach (evaluate fuel frame) arguments
      call (execute fuel) f vs closing
    | .get _ object property => do
      match ← evaluate fuel frame object with
      | .object id => lift (Eval.readProperty id property)
      | _ => fail .noProperties property
    | .set _ object property value => do
      match ← evaluate fuel frame object with
      | .object id => do
        let v ← evaluate fuel frame value
        setField id property.text v
        return v
      | _ => fail .noFields property

/-- Runs a statement in a frame. -/
def execute : (fuel : Nat) → FrameId → Stmt → Traced Flow
  | 0, _, _ => lift (throw .exhausted)
  | fuel + 1, frame, s => do
    mark (.statement frame s)
    match s with
    | .expression value => do
      let _ ← evaluate fuel frame value
      return .normal
    | .print value => do
      print (← evaluate fuel frame value)
      return .normal
    | .var name initial => do
      let v ← match initial with
        | none => pure .nil
        | some e => evaluate fuel frame e
      lift (Eval.define frame name.text v)
      return .normal
    | .block body => do
      let inner ← lift (Eval.newFrame { enclosing := some frame })
      runEach (execute fuel inner) body
    | .ifThen condition yes => do
      if (← evaluate fuel frame condition).truthy then execute fuel frame yes
      else return .normal
    | .ifElse condition yes no => do
      if (← evaluate fuel frame condition).truthy then execute fuel frame yes
      else execute fuel frame no
    | .whileLoop condition body => rounds fuel frame condition body
    | .function declaration => do
      lift (Eval.define frame declaration.name.text
        (.callable (.function ⟨declaration, frame, false⟩)))
      return .normal
    | .returns _ value => do
      let v ← match value with
        | none => pure .nil
        | some e => evaluate fuel frame e
      return .returned v
    | .classDecl name superclass methods => do
      lift (Eval.declareClass frame name superclass methods)
      return .normal

def rounds : (fuel : Nat) → FrameId → Expr → Stmt → Traced Flow
  | 0, _, _, _ => lift (throw .exhausted)
  | fuel + 1, frame, condition, body => do
    if (← evaluate fuel frame condition).truthy then
      match ← execute fuel frame body with
      | .normal => rounds fuel frame condition body
      | .returned v => return .returned v
    else
      return .normal

end

def runProgram (fuel : Nat) : List Stmt → Traced Unit
  | [] => return ()
  | s :: rest => do
    match ← execute fuel globalFrame s with
    | .normal => runProgram fuel rest
    | .returned _ => lift (throw (.fault .topLevelReturn))

def interpret (fuel : Nat) (program : List Stmt) : Traced Unit := do
  runProgram fuel program
  lift Eval.flush

end Traced
end ScopeScript
