import ScopeScript.Machine.Operator

/-! Operators make numbers, texts and truth values out of whatever they are given. -/
namespace ScopeScript

variable {ε : Type}

/-- Values that hold neither code nor an object. -/
def Value.isScalar : Value ε → Bool
  | .number _ | .string _ | .boolean _ | .nil => true
  | .callable _ | .object _ => false

theorem UnaryOp.isScalar_apply {op : UnaryOp} {v result : Value ε}
    (applied : op.apply v = .ok result) : result.isScalar = true := by
  cases op with
  | not =>
    cases applied
    rfl
  | negate =>
    cases v with
    | number _ =>
      cases applied
      rfl
    | string _ | boolean _ | nil | callable _ | object _ => contradiction

namespace BinaryOp
variable {op : BinaryOp} {result : Value ε}

theorem isScalar_equality {same : Bool} {otherwise : RuntimeCause}
    (applied : op.equality same otherwise = .ok result) : result.isScalar = true := by
  cases op <;> cases applied <;> rfl

theorem isScalar_onNumbers {a b : Float} (applied : op.onNumbers a b = .ok result) :
    result.isScalar = true := by
  cases op with
  | divide =>
    unfold onNumbers at applied
    dsimp only at applied
    split at applied
    · contradiction
    · cases applied
      rfl
  | add | subtract | multiply | greater | greaterEqual | less | lessEqual | equal | notEqual =>
    cases applied
    rfl

theorem isScalar_onStrings {a b : String} (applied : op.onStrings a b = .ok result) :
    result.isScalar = true := by
  unfold onStrings at applied
  split at applied
  · cases applied
    rfl
  · exact isScalar_equality applied

theorem isScalar_apply {left right : Value ε} (applied : op.apply left right = .ok result) :
    result.isScalar = true := by
  unfold apply at applied
  split at applied
  · exact isScalar_onNumbers applied
  · exact isScalar_onStrings applied
  · exact isScalar_equality applied
  · exact isScalar_equality applied
  · exact isScalar_equality applied

end BinaryOp
end ScopeScript
