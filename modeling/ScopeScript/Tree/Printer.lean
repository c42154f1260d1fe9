import ScopeScript.Tree.Expr

/-! Expressions written operator first, with a parenthesis around every node that has
operands. -/
namespace ScopeScript

namespace Literal

/-- Whole numbers are written out in full with one decimal place, all others are plain. -/
def numberText (x : Float) : String :=
  match Number.whole? x with
  | some (negative, n) => Number.sign negative ++ toString n ++ ".0"
  | none => Number.plain x

def render : Literal → String
  | number value => numberText value
  | string contents => contents
  | boolean true => "true"
  | boolean false => "false"
  | nil => "nil"

end Literal

namespace Expr

mutual

/-- The text of an expression. -/
def render : Expr → String
  | literal _ value => value.render
  | group _ inner => "(group " ++ inner.render ++ ")"
  | var _ name => name.text
  | this _ _ => "this"
  | assign _ name value => "(= " ++ name.text ++ " " ++ value.render ++ ")"
  | unary _ _ sign operand => "(" ++ sign.text ++ " " ++ operand.render ++ ")"
  | binary _ _ sign left right | logical _ _ sign left right =>
    "(" ++ sign.text ++ " " ++ left.render ++ " " ++ right.render ++ ")"
  | call _ callee arguments _ => "(call " ++ callee.render ++ renderEach arguments ++ ")"
  | get _ object property => "(. " ++ object.render ++ " " ++ property.text ++ ")"
  | set _ object property value =>
    "(.= " ++ object.render ++ " " ++ property.text ++ " " ++ value.render ++ ")"

/-- Each expression with a space before it. -/
def renderEach : List Expr → String
  | [] => ""
  | e :: rest => " " ++ e.render ++ renderEach rest

end

end Expr
end ScopeScript
