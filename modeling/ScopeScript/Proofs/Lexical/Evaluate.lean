import ScopeScript.Proofs.Lexical.State
import ScopeScript.Machine.Evaluate

/-! Running code by lexical scoping. A statement gives back the scope for the statements
behind it; a closure keeps the map of the place where it was declared. Evaluation is bounded
by `fuel` as on the machine with frames. -/
namespace ScopeScript.Lexical

/-- How a statement ends: it is done and the code behind it has a scope, or it returns. -/
inductive Flow where
  | normal (scope : Scope)
  | returned (value : Value Names)

namespace Eval

/-- Statements one after the other, each in the scope behind the one before. -/
def runEach (run : Scope → Stmt → Eval Flow) (scope : Scope) : List Stmt → Eval Flow
  | [] => return .normal scope
  | s :: rest => do
    match ← run scope s with
    | .normal scope => runEach run scope rest
    | .returned v => return .returned v

/-- What is declared inside ends with it. -/
def within (scope : Scope) (inside : Eval Flow) : Eval Flow := do
  match ← inside with
  | .normal _ => return .normal scope
  | .returned v => return .returned v

def valueEach (value : Expr → Eval (Value Names)) : List Expr → Eval (List (Value Names))
  | [] => return []
  | e :: rest => do
    let v ← value e
    return v :: (← valueEach value rest)

/-- Runs a closure's body with its parameters added to the map it keeps. -/
def callClosure (run : Scope → Stmt → Eval Flow) (f : Closure Names)
    (arguments : List (Value Names)) : Eval (Value Names) := do
  let params := f.declaration.params.map (·.text)
  let scope ← declareEach (.inner f.scope) (params.zip arguments)
  let flow ← runEach run scope f.declaration.body
  if f.isInit then
    return ((← get).value? f.scope thisName).getD .nil
  else
    match flow with
    | .normal _ => return .nil
    | .returned v => return v

def construct (run : Scope → Stmt → Eval Flow) (c : Class Names)
    (arguments : List (Value Names)) : Eval (Value Names) := do
  let object ← newObject c
  match c.method? initName with
  | none => return .object object
  | some method => do
    let bound ← bindMethod method object
    let _ ← callClosure run bound arguments
    return .object object

def enter (run : Scope → Stmt → Eval Flow) (arguments : List (Value Names)) :
    Callable Names → Eval (Value Names)
  | .native .clock => return .number (← readClock)
  | .function f => callClosure run f arguments
  | .ofClass c => construct run c arguments

def call (run : Scope → Stmt → Eval Flow) (callee : Value Names)
    (arguments : List (Value Names)) (closing : Lexeme) : Eval (Value Names) := do
  match callee with
  | .callable f =>
    if arguments.length = f.arity then enter run arguments f
    else fail (.wrongArity f.arity arguments.length) closing
  | _ => fail .notCallable closing

def superclassOf (names : Names) : Option Superclass → Eval (Option (Class Names))
  | none => return none
  | some s => do
    match ← readName names s.name with
    | .callable (.ofClass c) => return some c
    | _ => fail .superclassNotClass s.name

def methodTable (names : Names) (methods : List FunctionDecl) : Table (Closure Names) :=
  .ofList (methods.map fun d => (d.name.text, ⟨d, names, d.name.text = initName⟩))

/-- A class is declared before its superclass is looked up and its methods keep the map. -/
def declareClass (scope : Scope) (name : Lexeme) (superclass : Option Superclass)
    (methods : List FunctionDecl) : Eval Scope := do
  let scope ← declare scope name.text .nil
  let parent ← superclassOf scope.names superclass
  put scope.names name.text
    (.callable (.ofClass (.mk name.text parent (methodTable scope.names methods))))
  return scope

/-- A function is declared before it keeps the map. -/
def declareFunction (scope : Scope) (declaration : FunctionDecl) : Eval Scope := do
  let scope ← declare scope declaration.name.text .nil
  put scope.names declaration.name.text
    (.callable (.function ⟨declaration, scope.names, false⟩))
  return scope

end Eval

open ScopeScript.Lexical.Eval

mutual

/-- The value of an expression that sees some local names. -/
def evaluate : (fuel : Nat) → Names → Expr → Eval (Value Names)
  | 0, _, _ => throw .exhausted
  | fuel + 1, names, e =>
    match e with
    | .literal _ value => return value.value
    | .group _ inner => evaluate fuel names inner
    | .var _ name | .this _ name => readName names name
    | .assign _ name value => do
      let v ← evaluate fuel names value
      writeName names name v
      return v
    | .unary _ op sign operand => do
      let v ← evaluate fuel names operand
      orFail sign (op.apply v)
    | .binary _ op sign left right => do
      let a ← evaluate fuel names left
      let b ← evaluate fuel names right
      orFail sign (op.apply a b)
    | .logical _ op _ left right => do
      let v ← evaluate fuel names left
      if op.decides v then return v else evaluate fuel names right
    | .call _ callee arguments closing => do
      let f ← evaluate fuel names callee
      let vs ← valueEach (evaluate fuel names) arguments
      call (execute fuel) f vs closing
    | .get _ object property => do
      match ← evaluate fuel names object with
      | .object id => readProperty id property
      | _ => fail .noProperties property
    | .set _ object property value => do
      match ← evaluate fuel names object with
      | .object id => do
        let v ← evaluate fuel names value
        setField id property.text v
        return v
      | _ => fail .noFields property

/-- Runs a statement in a scope. -/
def execute : (fuel : Nat) → Scope → Stmt → Eval Flow
  | 0, _, _ => throw .exhausted
  | fuel + 1, scope, s =>
    match s with
    | .expression value => do
      let _ ← evaluate fuel scope.names value
      return .normal scope
    | .print value => do
      print (← evaluate fuel scope.names value)
      return .normal scope
    | .var name initial => do
      let v ← match initial with
        | none => pure .nil
        | some e => evaluate fuel scope.names e
      return .normal (← declare scope name.text v)
    | .block body => within scope (runEach (execute fuel) (.inner scope.names) body)
    | .ifThen condition yes => do
      if (← evaluate fuel scope.names condition).truthy then within scope (execute fuel scope yes)
      else return .normal scope
    | .ifElse condition yes no => do
      if (← evaluate fuel scope.names condition).truthy then within scope (execute fuel scope yes)
      else within scope (execute fuel scope no)
    | .whileLoop condition body => rounds fuel scope condition body
    | .function declaration => return .normal (← declareFunction scope declaration)
    | .returns _ value => do
      let v ← match value with
        | none => pure .nil
        | some e => evaluate fuel scope.names e
      return .returned v
    | .classDecl name superclass methods =>
      return .normal (← declareClass scope name superclass methods)

/-- Rounds of a loop, as long as its condition holds and its body does not return. -/
def rounds : (fuel : Nat) → Scope → Expr → Stmt → Eval Flow
  | 0, _, _, _ => throw .exhausted
  | fuel + 1, scope, condition, body => do
    if (← evaluate fuel scope.names condition).truthy then
      match ← execute fuel scope body with
      | .normal _ => rounds fuel scope condition body
      | .returned v => return .returned v
    else
      return .normal scope

end

/-- Runs a program's statements at the top level, up to the first that returns. -/
def interpret (fuel : Nat) (program : List Stmt) : Eval Unit := do
  let _ ← runEach (execute fuel) .top program
  flush

end ScopeScript.Lexical
