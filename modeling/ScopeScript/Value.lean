import ScopeScript.Store
import ScopeScript.Tree.Stmt

/-! The values of a program. Functions and classes never change once made; an object is
known by its number, and its fields are kept apart. All of them are stated over the type
`ε` of what a function remembers of the place it was declared in. Running programs
remember a frame of the store. -/
namespace ScopeScript

abbrev ObjectId := Nat

/-- The functions that are there from the start. -/
inductive Native where
  | clock
  deriving DecidableEq, Repr

def Native.name : Native → String
  | clock => "clock"

def Native.arity : Native → Nat
  | clock => 0

/-- A declared function with the scope it was declared in. -/
structure Closure (ε : Type := FrameId) where
  declaration : FunctionDecl
  scope : ε
  isInit : Bool

variable {ε : Type}

namespace Closure

def name (f : Closure ε) : String := f.declaration.name.text

def arity (f : Closure ε) : Nat := f.declaration.params.length

end Closure

inductive Class (ε : Type := FrameId) where
  | mk (name : String) (superclass : Option (Class ε)) (methods : Table (Closure ε))

/-- The method that sets up a new object. -/
def initName : String := "init"

namespace Class

def name : Class ε → String
  | mk name _ _ => name

/-- The class's own method, else the one it inherits. -/
def method? (name : String) : Class ε → Option (Closure ε)
  | mk _ none methods => methods.get? name
  | mk _ (some parent) methods => (methods.get? name).or (parent.method? name)

/-- A class takes what its `init` takes, or nothing. -/
def arity (c : Class ε) : Nat := (c.method? initName).elim 0 Closure.arity

end Class

/-- What can be called. -/
inductive Callable (ε : Type := FrameId) where
  | native (f : Native)
  | function (f : Closure ε)
  | ofClass (c : Class ε)

namespace Callable

/-- How many arguments a call takes. -/
def arity : Callable ε → Nat
  | native f => f.arity
  | function f => f.arity
  | ofClass c => c.arity

def text : Callable ε → String
  | native f => "<native fn " ++ f.name ++ ">"
  | function f => "<fn " ++ f.name ++ ">"
  | ofClass c => c.name

end Callable

inductive Value (ε : Type := FrameId) where
  | number (value : Float)
  | string (contents : String)
  | boolean (value : Bool)
  | nil
  | callable (f : Callable ε)
  | object (id : ObjectId)

/-- An object: the class it was made by and the fields set on it so far. -/
structure Object (ε : Type := FrameId) where
  origin : Class ε
  fields : Table (Value ε) := {}

def Literal.value : Literal → Value ε
  | number x => .number x
  | string contents => .string contents
  | boolean b => .boolean b
  | nil => .nil

namespace Value

def kind : Value ε → String
  | number _ => "number"
  | string _ => "string"
  | boolean _ => "boolean"
  | nil => "nil"
  | callable _ => "callable"
  | object _ => "instance"

/-- Only `true`, texts that are not empty and numbers other than zero count as true. -/
def truthy : Value ε → Bool
  | boolean b => b
  | string contents => contents ≠ ""
  | number x => x != 0.0
  | _ => false

/-- What `print` writes. -/
def text (objects : Array (Object ε)) : Value ε → String
  | number x => Number.plain x
  | string contents => contents
  | boolean true => "true"
  | boolean false => "false"
  | nil => "nil"
  | callable f => f.text
  | object id => (objects[id]?).elim "" (·.origin.name) ++ " instance"

end Value
end ScopeScript
