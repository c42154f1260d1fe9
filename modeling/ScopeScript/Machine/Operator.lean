import ScopeScript.Value

/-! What operators do to values, and the ways in which running code can go wrong. -/
namespace ScopeScript

inductive RuntimeCause where
  | undefinedVariable (name : String)
  | undefinedProperty (name : String)
  | noProperties
  | noFields
  | notCallable
  | wrongArity (expected given : Nat)
  | operandNotNumber
  | stringOperator
  | nilOperator
  | booleanOperator
  | mismatchedOperands
  | divisionByZero
  | superclassNotClass
  deriving DecidableEq, Repr

def RuntimeCause.message : RuntimeCause → String
  | undefinedVariable name => "Undefined variable '" ++ name ++ "'."
  | undefinedProperty name => "Undefined property '" ++ name ++ "'."
  | noProperties => "Only instances have properties."
  | noFields => "Only instances have fields."
  | notCallable => "Can only call functions and classes."
  | wrongArity expected given => s!"Expected {expected} arguments but got {given}."
  | operandNotNumber => "Operand must be a number."
  | stringOperator => "Invalid string operator."
  | nilOperator => "Invalid nil operator."
  | booleanOperator => "Invalid boolean operator."
  | mismatchedOperands => "Invalid operator on mismatched types."
  | divisionByZero => "Attempted division by zero."
  | superclassNotClass => "Superclass must be a class."

variable {ε : Type}

def UnaryOp.apply : UnaryOp → Value ε → Except RuntimeCause (Value ε)
  | .not, v => .ok (.boolean !v.truthy)
  | .negate, .number x => .ok (.number (-x))
  | .negate, _ => .error .operandNotNumber

/-- Whether the left operand already is the result. -/
def LogicalOp.decides : LogicalOp → Value ε → Bool
  | .or, left => left.truthy
  | .and, left => !left.truthy

namespace BinaryOp

/-- Operands that can only be compared for equality. -/
def equality (op : BinaryOp) (same : Bool) (otherwise : RuntimeCause) :
    Except RuntimeCause (Value ε) :=
  match op with
  | equal => .ok (.boolean same)
  | notEqual => .ok (.boolean !same)
  | _ => .error otherwise

def onNumbers (op : BinaryOp) (a b : Float) : Except RuntimeCause (Value ε) :=
  match op with
  | add => .ok (.number (a + b))
  | subtract => .ok (.number (a - b))
  | multiply => .ok (.number (a * b))
  | divide => if b == 0.0 then .error .divisionByZero else .ok (.number (a / b))
  | greater => .ok (.boolean (a > b))
  | greaterEqual => .ok (.boolean (a ≥ b))
  | less => .ok (.boolean (a < b))
  | lessEqual => .ok (.boolean (a ≤ b))
  | equal => .ok (.boolean (a == b))
  | notEqual => .ok (.boolean (a != b))

def onStrings (op : BinaryOp) (a b : String) : Except RuntimeCause (Value ε) :=
  match op with
  | add => .ok (.string (a ++ b))
  | _ => op.equality (a == b) .stringOperator

/-- Operands of different kinds are never equal, and neither are two functions, classes or
objects. -/
def apply (op : BinaryOp) : Value ε → Value ε → Except RuntimeCause (Value ε)
  | .number a, .number b => op.onNumbers a b
  | .string a, .string b => op.onStrings a b
  | .boolean a, .boolean b => op.equality (a == b) .booleanOperator
  | .nil, .nil => op.equality true .nilOperator
  | _, _ => op.equality false .mismatchedOperands

end BinaryOp
end ScopeScript
