import ScopeScript.Place

/-! What a parser can find missing or too much. -/
namespace ScopeScript

/-- Whether a body belongs to a function or to a method of a class. -/
inductive FunctionRole where
  | function | method
  deriving DecidableEq, Repr

def FunctionRole.noun : FunctionRole → String
  | function => "function"
  | method => "method"

inductive ParseCause where
  | expression | endOfExpression | assignmentTarget
  | groupClose | argumentsClose | propertyName | tooManyArguments
  | expressionEnd | printEnd | returnEnd | variableName | variableEnd
  | ifOpen | ifClose | whileOpen | whileClose
  | forOpen | forConditionEnd | forClose | blockClose
  | functionName (role : FunctionRole) | parametersOpen (role : FunctionRole)
  | parameterName | parametersClose | tooManyParameters | bodyOpen (role : FunctionRole)
  | className | superclassName | classOpen | classClose
  deriving DecidableEq, Repr

def ParseCause.message : ParseCause → String
  | expression => "Expect expression."
  | endOfExpression => "Expect end of expression."
  | assignmentTarget => "Invalid assignment target."
  | groupClose => "Expect ')' after expression."
  | argumentsClose => "Expect ')' after arguments."
  | propertyName => "Expect property name after '.'."
  | tooManyArguments => "Can't have more than 255 arguments."
  | expressionEnd => "Expect ';' after expression."
  | printEnd => "Expect ';' after value."
  | returnEnd => "Expect ';' after return value."
  | variableName => "Expect variable name."
  | variableEnd => "Expect ';' after variable declaration."
  | ifOpen => "Expect '(' after 'if'."
  | ifClose => "Expect ')' after if condition."
  | whileOpen => "Expect '(' after 'while'."
  | whileClose => "Expect ')' after condition."
  | forOpen => "Expect '(' after 'for'."
  | forConditionEnd => "Expect ';' after loop condition."
  | forClose => "Expect ')' after for clauses."
  | blockClose => "Expect '\x7d' after block."
  | functionName role => "Expect " ++ role.noun ++ " name."
  | parametersOpen role => "Expect '(' after " ++ role.noun ++ " name."
  | parameterName => "Expect parameter name."
  | parametersClose => "Expect ')' after parameters."
  | tooManyParameters => "Can't have more than 255 parameters."
  | bodyOpen role => "Expect '\x7b' before " ++ role.noun ++ " body."
  | className => "Expect class name."
  | superclassName => "Expect superclass name."
  | classOpen => "Expect '\x7b' before class body."
  | classClose => "Expect '\x7d' after class body."

structure ParseError where
  cause : ParseCause
  place : Place
  deriving DecidableEq, Repr

end ScopeScript
