import ScopeScript.Place
import ScopeScript.Tree.Stmt

/-! Static scoping. One walk over a program finds, for every use of a name, how many
scopes out its declaration lies, and every breach of the scoping rules. A name counts
once its declaration is complete: a variable after its initial value, a function or class
already inside its own body. -/
namespace ScopeScript

inductive ScopeCause where
  | duplicateName
  | ownInitialValue
  | topLevelReturn
  | thisOutsideClass
  | ownSuperclass
  deriving DecidableEq, Repr

def ScopeCause.message : ScopeCause → String
  | duplicateName => "Already a variable with this name in this scope."
  | ownInitialValue => "Can't read local variable in its own initializer."
  | topLevelReturn => "Can't return from top-level code."
  | thisOutsideClass => "Can't use 'this' outside of a class."
  | ownSuperclass => "A class can't inherit from itself."

structure ScopeError where
  cause : ScopeCause
  place : Place
  deriving DecidableEq, Repr

/-- What the walk has to say about one node. -/
inductive Finding where
  | found (id : ExprId) (distance : Nat)
  | breach (error : ScopeError)
  deriving DecidableEq, Repr

def Finding.breachAt (cause : ScopeCause) (l : Lexeme) : Finding := breach ⟨cause, .ofLexeme l⟩

/-- The names that are visible, scope by scope from the innermost outwards, and the names
known to be global. -/
structure Scopes where
  locals : List (List String)
  globals : List String

namespace Scopes

/-- How many scopes out the nearest local declaration of a name lies. -/
def distance? (s : Scopes) (name : String) : Option Nat :=
  s.locals.findIdx? (·.contains name)

/-- A scope inside this one that starts with the given names. -/
def enter (s : Scopes) (names : List String) : Scopes := { s with locals := names :: s.locals }

/-- Completes a declaration in the innermost scope. -/
def declare (s : Scopes) (name : String) : Scopes :=
  match s.locals with
  | [] => { s with globals := if s.globals.contains name then s.globals else name :: s.globals }
  | scope :: outer => { s with locals := (name :: scope) :: outer }

/-- A second declaration of a name in one local scope. Global names may be declared again. -/
def duplicate (s : Scopes) (name : Lexeme) : List Finding :=
  match s.locals with
  | [] => []
  | scope :: _ => if scope.contains name.text then [.breachAt .duplicateName name] else []

/-- The scopes behind a statement. -/
def after (s : Scopes) : Stmt → Scopes
  | .var name _ | .classDecl name _ _ => s.declare name.text
  | .function declaration => s.declare declaration.name.text
  | _ => s

end Scopes

/-- What surrounds a node: the visible names, whether it is inside a function or a class,
and the variable whose initial value it is part of. -/
structure Context where
  scopes : Scopes
  inFunction : Bool := false
  inClass : Bool := false
  pending : Option String := none

namespace Context

/-- A use of a name. A variable is not visible in its own initial value, where its name
means a binding further out if there is one. -/
def reference (c : Context) (id : ExprId) (name : Lexeme) : List Finding :=
  match c.scopes.distance? name.text with
  | some distance => [.found id distance]
  | none =>
    if c.pending = some name.text ∧ name.text ∉ c.scopes.globals then
      [.breachAt .ownInitialValue name]
    else []

def enter (c : Context) (names : List String) : Context :=
  { c with scopes := c.scopes.enter names }

def declare (c : Context) (name : String) : Context :=
  { c with scopes := c.scopes.declare name }

def after (c : Context) (s : Stmt) : Context := { c with scopes := c.scopes.after s }

/-- Inside the initial value of a variable. -/
def initialValueOf (c : Context) (name : String) : Context := { c with pending := some name }

end Context

/-- The name that methods know their object by. -/
def thisName : String := "this"

namespace Expr

mutual

/-- The findings of an expression, in the order of the walk. -/
def findings (c : Context) : Expr → List Finding
  | literal _ _ => []
  | group _ inner => inner.findings c
  | var id name => c.reference id name
  | this id keyword =>
    if c.inClass then c.reference id keyword else [.breachAt .thisOutsideClass keyword]
  | assign id name value => value.findings c ++ c.reference id name
  | unary _ _ _ operand => operand.findings c
  | binary _ _ _ left right | logical _ _ _ left right => left.findings c ++ right.findings c
  | call _ callee arguments _ => callee.findings c ++ findingsEach c arguments
  | get _ object _ => object.findings c
  | set _ object _ value => object.findings c ++ value.findings c

def findingsEach (c : Context) : List Expr → List Finding
  | [] => []
  | e :: rest => e.findings c ++ findingsEach c rest

end

end Expr

namespace Scopes

/-- Declares parameters one after the other. -/
def declareParams (s : Scopes) : List Lexeme → Scopes
  | [] => s
  | p :: rest => (s.declare p.text).declareParams rest

/-- The parameters that repeat one before them. -/
def duplicateParams (s : Scopes) : List Lexeme → List Finding
  | [] => []
  | p :: rest => s.duplicate p ++ (s.declare p.text).duplicateParams rest

end Scopes

namespace Context

/-- Among the methods of a class. -/
def classBody (c : Context) : Context := { c.enter [thisName] with inClass := true }

/-- In the body of a function, whose parameters share its scope. -/
def functionBody (c : Context) (params : List Lexeme) : Context :=
  { c with scopes := (c.scopes.enter []).declareParams params, inFunction := true }

end Context

mutual

/-- The findings of a statement, in the order of the walk. -/
def Stmt.findings (c : Context) : Stmt → List Finding
  | .expression value | .print value => value.findings c
  | .var name initial =>
    c.scopes.duplicate name ++
      match initial with
      | none => []
      | some e => e.findings (c.initialValueOf name.text)
  | .block body => Stmt.findingsEach (c.enter []) body
  | .ifThen condition yes => condition.findings c ++ yes.findings c
  | .ifElse condition yes no => condition.findings c ++ yes.findings c ++ no.findings c
  | .whileLoop condition body => condition.findings c ++ body.findings c
  | .function declaration =>
    c.scopes.duplicate declaration.name ++
      declaration.findings (c.declare declaration.name.text)
  | .returns keyword value =>
    (if c.inFunction then [] else [.breachAt .topLevelReturn keyword]) ++
      match value with
      | none => []
      | some e => e.findings c
  | .classDecl name superclass methods =>
    let inside := c.declare name.text
    c.scopes.duplicate name ++
      (match superclass with
      | none => []
      | some s =>
        (if s.name.text = name.text then [.breachAt .ownSuperclass s.name] else []) ++
          inside.reference s.id s.name) ++
      FunctionDecl.findingsEach inside.classBody methods

/-- Each statement sees the declarations before it. -/
def Stmt.findingsEach (c : Context) : List Stmt → List Finding
  | [] => []
  | s :: rest => s.findings c ++ Stmt.findingsEach (c.after s) rest

def FunctionDecl.findings (c : Context) : FunctionDecl → List Finding
  | .mk _ params body =>
    (c.scopes.enter []).duplicateParams params ++ Stmt.findingsEach (c.functionBody params) body

def FunctionDecl.findingsEach (c : Context) : List FunctionDecl → List Finding
  | [] => []
  | f :: rest => f.findings c ++ FunctionDecl.findingsEach c rest

end

end ScopeScript
