import ScopeScript.Proofs.Tree.Shape
import ScopeScript.Scope.Resolve
import ScopeScript.Table

/-! Static scoping with a state. A resolver keeps the scopes that are open and the globals it knows,
each name with a mark that says whether its declaration is complete, and collects distances and
errors on its way. It walks over one program after the other. Errors do not stop a walk, so every
construct has to put back what it changed on all ways through it. -/
namespace ScopeScript

inductive FunctionKind where
  | outside | function | method
  deriving DecidableEq

inductive ClassKind where
  | outside | inside
  deriving DecidableEq

/-- Scopes are listed from the innermost outwards. Of two distances for one use the later counts. -/
structure Resolver where
  scopes : List (Table Bool) := []
  globals : Table Bool := {}
  locals : List (ExprId × Nat) := []
  errors : List ScopeError := []
  functionKind : FunctionKind := .outside
  classKind : ClassKind := .outside

namespace Resolver

/-- A resolver that knows some globals. -/
def withGlobals (names : List String) : Resolver where
  globals := .ofList (names.map (·, true))

def error (cause : ScopeCause) (l : Lexeme) (r : Resolver) : Resolver :=
  { r with errors := r.errors ++ [⟨cause, .ofLexeme l⟩] }

/-- Adds a name whose declaration has begun, unless it is there. -/
def beginIn (t : Table Bool) (name : String) : Table Bool :=
  if t.contains name then t else t.insert name false

/-- Begins a declaration. A global that is there stays readable. -/
def declare (name : Lexeme) (r : Resolver) : Resolver :=
  match r.scopes with
  | [] => { r with globals := beginIn r.globals name.text }
  | scope :: outer =>
    if scope.contains name.text then r.error .duplicateName name
    else { r with scopes := scope.insert name.text false :: outer }

/-- Completes a declaration. -/
def define (name : String) (r : Resolver) : Resolver :=
  match r.scopes with
  | [] => { r with globals := r.globals.insert name true }
  | scope :: outer => { r with scopes := scope.insert name true :: outer }

/-- How many scopes out the nearest complete declaration lies. -/
def distance? (r : Resolver) (name : String) : Option Nat :=
  r.scopes.findIdx? (·.get? name == some true)

/-- Whether a declaration of a name has begun and is not complete. -/
def begun (r : Resolver) (name : String) : Bool :=
  r.scopes.any (·.get? name == some false) || r.globals.get? name == some false

/-- A use of a name. -/
def reference (id : ExprId) (name : Lexeme) (r : Resolver) : Resolver :=
  match r.distance? name.text with
  | some distance => { r with locals := r.locals ++ [(id, distance)] }
  | none =>
    if r.begun name.text = true ∧ r.globals.get? name.text ≠ some true then
      r.error .ownInitialValue name
    else r

def this (id : ExprId) (keyword : Lexeme) (r : Resolver) : Resolver :=
  if r.classKind = .outside then r.error .thisOutsideClass keyword else r.reference id keyword

def returns (keyword : Lexeme) (r : Resolver) : Resolver :=
  if r.functionKind = .outside then r.error .topLevelReturn keyword else r

def inherits (name : Lexeme) (parent : Superclass) (r : Resolver) : Resolver :=
  if parent.name.text = name.text then r.error .ownSuperclass parent.name else r

/-- A walk inside a scope of its own. -/
def insideScope (walk : Resolver → Resolver) (r : Resolver) : Resolver :=
  let walked := walk { r with scopes := {} :: r.scopes }
  { walked with scopes := walked.scopes.tail }

def insideFunction (kind : FunctionKind) (walk : Resolver → Resolver) (r : Resolver) : Resolver :=
  { walk { r with functionKind := kind } with functionKind := r.functionKind }

def insideClass (walk : Resolver → Resolver) (r : Resolver) : Resolver :=
  { walk { r with classKind := .inside } with classKind := r.classKind }

/-- A declaration that is complete at once. -/
def declared (name : Lexeme) (r : Resolver) : Resolver := (r.declare name).define name.text

def params : List Lexeme → Resolver → Resolver
  | [], r => r
  | p :: rest, r => params rest (r.declared p)

mutual

def expression : Expr → Resolver → Resolver
  | .literal _ _, r => r
  | .group _ inner, r => expression inner r
  | .var id name, r => r.reference id name
  | .this id keyword, r => r.this id keyword
  | .assign id name value, r => (expression value r).reference id name
  | .unary _ _ _ operand, r => expression operand r
  | .binary _ _ _ left right, r | .logical _ _ _ left right, r =>
    expression right (expression left r)
  | .call _ callee arguments _, r => expressions arguments (expression callee r)
  | .get _ object _, r => expression object r
  | .set _ object _ value, r => expression value (expression object r)

def expressions : List Expr → Resolver → Resolver
  | [], r => r
  | e :: rest, r => expressions rest (expression e r)

end

def optional : Option Expr → Resolver → Resolver
  | none, r => r
  | some e, r => expression e r

/-- What a class named `name` inherits from. -/
def superclass (name : Lexeme) : Option Superclass → Resolver → Resolver
  | none, r => r
  | some s, r => (r.inherits name s).reference s.id s.name

mutual

def statement : Stmt → Resolver → Resolver
  | .expression value, r | .print value, r => expression value r
  | .var name initial, r => (optional initial (r.declare name)).define name.text
  | .block body, r => insideScope (statements body) r
  | .ifThen condition yes, r => statement yes (expression condition r)
  | .ifElse condition yes no, r => statement no (statement yes (expression condition r))
  | .whileLoop condition body, r => statement body (expression condition r)
  | .function declaration, r => function .function declaration (r.declared declaration.name)
  | .returns keyword value, r => optional value (r.returns keyword)
  | .classDecl name parent methods, r =>
    insideClass (fun r => insideScope (fun r => functions .method methods (r.define thisName))
      (superclass name parent (r.declared name))) r

def statements : List Stmt → Resolver → Resolver
  | [], r => r
  | s :: rest, r => statements rest (statement s r)

/-- Parameters and body share a scope. -/
def function (kind : FunctionKind) : FunctionDecl → Resolver → Resolver
  | .mk _ names body, r =>
    insideFunction kind (insideScope fun r => statements body (params names r)) r

def functions (kind : FunctionKind) : List FunctionDecl → Resolver → Resolver
  | [], r => r
  | f :: rest, r => functions kind rest (function kind f r)

end

/-- Walks over a program and hands over what was collected. -/
def resolve (r : Resolver) (program : List Stmt) :
    Except (List ScopeError) (List (ExprId × Nat)) × Resolver :=
  let walked := statements program r
  (match walked.errors with
    | [] => .ok walked.locals
    | errors => .error errors,
    { walked with locals := [], errors := [] })

/-- The resolver behind programs that were resolved one after the other. -/
def after (r : Resolver) : List (List Stmt) → Resolver
  | [] => r
  | program :: rest => (r.resolve program).2.after rest

/-! One induction for all facts about walks. -/

/-- What holds of a walk over an expression whenever it holds of the parts that such walks are made
of. The numbers are those of the nodes that are walked over. -/
structure ExprRule (holds : List ExprId → (Resolver → Resolver) → Prop) : Prop where
  skip : holds [] fun r => r
  node {ids : List ExprId} {walk : Resolver → Resolver} (id : ExprId) :
    holds ids walk → holds (ids ++ [id]) walk
  andThen {ids others : List ExprId} {walk next : Resolver → Resolver} :
    holds ids walk → holds others next → holds (ids ++ others) fun r => next (walk r)
  reference (id : ExprId) (name : Lexeme) : holds [id] (reference id name)
  this (id : ExprId) (keyword : Lexeme) : holds [id] (this id keyword)

/-- The same for statements. In the initial value of a variable its declaration is not complete, so
a variable is a part of its own. -/
structure WalkRule (holds : List ExprId → (Resolver → Resolver) → Prop) : Prop
    extends ExprRule holds where
  returns (keyword : Lexeme) : holds [] (returns keyword)
  inherits (name : Lexeme) (parent : Superclass) : holds [] (inherits name parent)
  declared (name : Lexeme) : holds [] (declared name)
  define (name : String) : holds [] (define name)
  ofVariable (name : Lexeme) (initial : Option Expr) :
    holds (idsOptional initial) (statement (.var name initial))
  scope {ids : List ExprId} {walk : Resolver → Resolver} :
    holds ids walk → holds ids (insideScope walk)
  functionScope {ids : List ExprId} {walk : Resolver → Resolver} (kind : FunctionKind) :
    holds ids walk → holds ids (insideFunction kind walk)
  classScope {ids : List ExprId} {walk : Resolver → Resolver} :
    holds ids walk → holds ids (insideClass walk)

section
variable {holds : List ExprId → (Resolver → Resolver) → Prop}

mutual

theorem ExprRule.expression (rule : ExprRule holds) : ∀ e : Expr, holds e.ids (expression e)
  | .literal id _ => rule.node id rule.skip
  | .group id inner | .unary id _ _ inner | .get id inner _ =>
    rule.node id (rule.expression inner)
  | .var id name => rule.reference id name
  | .this id keyword => rule.this id keyword
  | .assign id name value => (rule.andThen (rule.expression value) (rule.reference id name) :)
  | .binary id _ _ left right | .logical id _ _ left right | .set id left _ right =>
    (rule.andThen (rule.expression left) (rule.node id (rule.expression right)) :)
  | .call id callee arguments _ =>
    (rule.andThen (rule.expression callee) (rule.node id (rule.expressions arguments)) :)

theorem ExprRule.expressions (rule : ExprRule holds) :
    ∀ es : List Expr, holds (Expr.idsEach es) (expressions es)
  | [] => rule.skip
  | e :: rest => (rule.andThen (rule.expression e) (rule.expressions rest) :)

end

theorem ExprRule.optional (rule : ExprRule holds) (value : Option Expr) :
    holds (idsOptional value) (optional value) := by
  cases value with
  | none => exact rule.skip
  | some e => exact rule.expression e

theorem WalkRule.params (rule : WalkRule holds) (names : List Lexeme) : holds [] (params names) := by
  induction names with
  | nil => exact rule.skip
  | cons p rest ih => exact (rule.andThen (rule.declared p) ih :)

theorem WalkRule.superclass (rule : WalkRule holds) (name : Lexeme) (parent : Option Superclass) :
    holds (parent.map (·.id)).toList (superclass name parent) := by
  cases parent with
  | none => exact rule.skip
  | some s => exact (rule.andThen (rule.inherits name s) (rule.reference s.id s.name) :)

mutual

theorem WalkRule.statement (rule : WalkRule holds) : ∀ s : Stmt, holds s.ids (statement s)
  | .expression value | .print value => rule.expression value
  | .var name initial => rule.ofVariable name initial
  | .block body => rule.scope (rule.statements body)
  | .ifThen condition body | .whileLoop condition body =>
    (rule.andThen (rule.expression condition) (rule.statement body) :)
  | .ifElse condition yes no =>
    (rule.andThen (rule.expression condition)
      (rule.andThen (rule.statement yes) (rule.statement no)) :)
  | .function declaration =>
    (rule.andThen (rule.declared declaration.name) (rule.function .function declaration) :)
  | .returns keyword value => (rule.andThen (rule.returns keyword) (rule.optional value) :)
  | .classDecl name parent methods => by
    have inside := rule.scope (rule.andThen (rule.define thisName) (rule.functions .method methods))
    have named := rule.andThen (rule.declared name) (rule.superclass name parent)
    exact (rule.classScope (rule.andThen named inside) :)

theorem WalkRule.statements (rule : WalkRule holds) :
    ∀ body : List Stmt, holds (Stmt.idsEach body) (statements body)
  | [] => rule.skip
  | s :: rest => (rule.andThen (rule.statement s) (rule.statements rest) :)

theorem WalkRule.function (rule : WalkRule holds) (kind : FunctionKind) :
    ∀ f : FunctionDecl, holds f.ids (function kind f)
  | .mk _ names body =>
    (rule.functionScope kind
      (rule.scope (rule.andThen (rule.params names) (rule.statements body))) :)

theorem WalkRule.functions (rule : WalkRule holds) (kind : FunctionKind) :
    ∀ fs : List FunctionDecl, holds (FunctionDecl.idsEach fs) (functions kind fs)
  | [] => rule.skip
  | f :: rest => (rule.andThen (rule.function kind f) (rule.functions kind rest) :)

end

end

end Resolver
end ScopeScript
