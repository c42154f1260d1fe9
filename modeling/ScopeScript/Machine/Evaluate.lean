import ScopeScript.Machine.State

/-! Running code. Evaluation is bounded by `fuel`, which every nested expression,
statement, call and round of a loop lowers by one; a run that has enough of it does not
depend on how much there was. -/
namespace ScopeScript

/-- How a statement ends: it is done, or a `return` is on its way to the call. -/
inductive Flow where
  | normal
  | returned (value : Value)

namespace Eval

/-- Statements one after the other, up to the first that returns. -/
def runEach (run : Stmt → Eval Flow) : List Stmt → Eval Flow
  | [] => return .normal
  | s :: rest => do
    match ← run s with
    | .normal => runEach run rest
    | .returned v => return .returned v

/-- The values of expressions from left to right. -/
def valueEach (value : Expr → Eval Value) : List Expr → Eval (List Value)
  | [] => return []
  | e :: rest => do
    let v ← value e
    return v :: (← valueEach value rest)

/-- Runs a closure's body in a new frame with its parameters. A method that sets up its
object gives back that object whatever its body returns. -/
def callClosure (run : FrameId → Stmt → Eval Flow) (f : Closure) (arguments : List Value) :
    Eval Value := do
  let params := f.declaration.params.map (·.text)
  let frame ← newFrame
    { bindings := .ofList (params.zip arguments), enclosing := some f.scope }
  let flow ← runEach (run frame) f.declaration.body
  if f.isInit then
    orFault ((← get).store.getAt f.scope 0 thisName)
  else
    match flow with
    | .normal => return .nil
    | .returned v => return v

/-- A new object of a class, set up by the class's `init` if it has one. -/
def construct (run : FrameId → Stmt → Eval Flow) (c : Class) (arguments : List Value) :
    Eval Value := do
  let object ← newObject c
  match c.method? initName with
  | none => return .object object
  | some method => do
    let bound ← bindMethod method object
    let _ ← callClosure run bound arguments
    return .object object

/-- Enters a callable with as many arguments as it takes. -/
def enter (run : FrameId → Stmt → Eval Flow) (arguments : List Value) : Callable → Eval Value
  | .native .clock => return .number (← readClock)
  | .function f => callClosure run f arguments
  | .ofClass c => construct run c arguments

/-- Calls a value, which has to be callable and to take as many arguments as are given. -/
def call (run : FrameId → Stmt → Eval Flow) (callee : Value) (arguments : List Value)
    (closing : Lexeme) : Eval Value := do
  match callee with
  | .callable f =>
    if arguments.length = f.arity then enter run arguments f
    else fail (.wrongArity f.arity arguments.length) closing
  | _ => fail .notCallable closing

/-- The class that a superclass's name stands for. -/
def superclassOf (frame : FrameId) : Option Superclass → Eval (Option Class)
  | none => return none
  | some s => do
    match ← readName frame s.id s.name with
    | .callable (.ofClass c) => return some c
    | _ => fail .superclassNotClass s.name

/-- The methods of a class declared in a frame; of two with one name the later counts. -/
def methodTable (frame : FrameId) (methods : List FunctionDecl) : Table Closure :=
  .ofList (methods.map fun d => (d.name.text, ⟨d, frame, d.name.text = initName⟩))

/-- Declares a class. Its name is bound before its superclass is looked up. -/
def declareClass (frame : FrameId) (name : Lexeme) (superclass : Option Superclass)
    (methods : List FunctionDecl) : Eval Unit := do
  define frame name.text .nil
  let parent ← superclassOf frame superclass
  define frame name.text (.callable (.ofClass (.mk name.text parent (methodTable frame methods))))

end Eval

open Eval

mutual

/-- The value of an expression in a frame. -/
def evaluate : (fuel : Nat) → FrameId → Expr → Eval Value
  | 0, _, _ => throw .exhausted
  | fuel + 1, frame, e =>
    match e with
    | .literal _ value => return value.value
    | .group _ inner => evaluate fuel frame inner
    | .var id name | .this id name => readName frame id name
    | .assign id name value => do
      let v ← evaluate fuel frame value
      writeName frame id name v
      return v
    | .unary _ op sign operand => do
      let v ← evaluate fuel frame operand
      orFail sign (op.apply v)
    | .binary _ op sign left right => do
      let a ← evaluate fuel frame left
      let b ← evaluate fuel frame right
      orFail sign (op.apply a b)
    | .logical _ op _ left right => do
      let v ← evaluate fuel frame left
      if op.decides v then return v else evaluate fuel frame right
    | .call _ callee arguments closing => do
      let f ← evaluate fuel frame callee
      let vs ← valueEach (evaluate fuel frame) arguments
      call (execute fuel) f vs closing
    | .get _ object property => do
      match ← evaluate fuel frame object with
      | .object id => readProperty id property
      | _ => fail .noProperties property
    | .set _ object property value => do
      match ← evaluate fuel frame object with
      | .object id => do
        let v ← evaluate fuel frame value
        setField id property.text v
        return v
      | _ => fail .noFields property

/-- Runs a statement in a frame. -/
def execute : (fuel : Nat) → FrameId → Stmt → Eval Flow
  | 0, _, _ => throw .exhausted
  | fuel + 1, frame, s =>
    match s with
    | .expression value => do
      let _ ← evaluate fuel frame value
      return .normal
    | .print value => do
      print (← evaluate fuel frame value)
      return .normal
    | .var name initial => do
      let v ← match initial with
        | none => pure .nil
        | some e => evaluate fuel frame e
      define frame name.text v
      return .normal
    | .block body => do
      let inner ← newFrame { enclosing := some frame }
      runEach (execute fuel inner) body
    | .ifThen condition yes => do
      if (← evaluate fuel frame condition).truthy then execute fuel frame yes
      else return .normal
    | .ifElse condition yes no => do
      if (← evaluate fuel frame condition).truthy then execute fuel frame yes
      else execute fuel frame no
    | .whileLoop condition body => rounds fuel frame condition body
    | .function declaration => do
      define frame declaration.name.text (.callable (.function ⟨declaration, frame, false⟩))
      return .normal
    | .returns _ value => do
      let v ← match value with
        | none => pure .nil
        | some e => evaluate fuel frame e
      return .returned v
    | .classDecl name superclass methods => do
      declareClass frame name superclass methods
      return .normal

/-- Rounds of a loop, as long as its condition holds and its body does not return. -/
def rounds : (fuel : Nat) → FrameId → Expr → Stmt → Eval Flow
  | 0, _, _, _ => throw .exhausted
  | fuel + 1, frame, condition, body => do
    if (← evaluate fuel frame condition).truthy then
      match ← execute fuel frame body with
      | .normal => rounds fuel frame condition body
      | .returned v => return .returned v
    else
      return .normal

end

/-- Runs a program's statements at the top level, where nothing may return. -/
def runProgram (fuel : Nat) : List Stmt → Eval Unit
  | [] => return ()
  | s :: rest => do
    match ← execute fuel globalFrame s with
    | .normal => runProgram fuel rest
    | .returned _ => throw (.fault .topLevelReturn)

/-- Runs a program and flushes what it printed. -/
def interpret (fuel : Nat) (program : List Stmt) : Eval Unit := do
  runProgram fuel program
  flush

end ScopeScript
