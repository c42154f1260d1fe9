import ScopeScript.Parse.Program

/-! Parsing over a buffer of tokens and an index into it. Here the parser can go wrong in ways that
a list of tokens left to read rules out: it can look behind the last token of the buffer or before
the first, and its loops can go round without end, which shows as fuel that is used up. The
procedures are those of the cursor; they read tokens by looking at the index and moving it. -/
namespace ScopeScript

/-- Tokens and the index of the next one. -/
structure TokenBuffer where
  tokens : List Token
  current : Nat
  nextId : ExprId

/-- Tokens that do not end with an end of input get one, on the line of the last token. -/
def TokenBuffer.ofTokens (tokens : List Token) (nextId : ExprId) : TokenBuffer where
  tokens :=
    if tokens.getLast?.any (·.kind = .endOfInput) then tokens
    else tokens ++ [⟨⟨"", tokens.getLast?.elim 1 (·.line)⟩, .endOfInput⟩]
  current := 0
  nextId := nextId

/-- Why a run does not give a result: a complaint, an index out of the buffer's bounds, or no end. -/
inductive Halt where
  | error (e : ParseError)
  | pastEnd
  | beforeStart
  | exhausted

abbrev Buffered := EStateM Halt TokenBuffer

/-- Where a complaint about a token points. -/
def Token.place (t : Token) : Place :=
  if t.kind = .endOfInput then .ofEnd t.line else .ofLexeme t.toLexeme

namespace Buffered
variable {α β : Type}

theorem bind_ok {p : Buffered α} {next : α → Buffered β} {b b' : TokenBuffer} {a : α}
    (found : p b = .ok a b') : (p >>= next) b = next a b' := by
  simp only [Bind.bind, EStateM.bind, found]

theorem bind_error {p : Buffered α} {next : α → Buffered β} {b b' : TokenBuffer} {halt : Halt}
    (found : p b = .error halt b') : (p >>= next) b = .error halt b' := by
  simp only [Bind.bind, EStateM.bind, found]

/-- The token at the index. -/
def peek : Buffered Token := fun b =>
  match b.tokens[b.current]? with
  | some t => .ok t b
  | none => .error .pastEnd b

/-- The token before the index. -/
def previous : Buffered Token := fun b =>
  match b.current with
  | 0 => .error .beforeStart b
  | index + 1 =>
    match b.tokens[index]? with
    | some t => .ok t b
    | none => .error .pastEnd b

def exhausted : Buffered α := fun b => .error .exhausted b

def isAtEnd : Buffered Bool := return (← peek).kind = .endOfInput

/-- Moves on unless the input is at its end, and gives the token before the index. -/
def advance : Buffered Token := do
  if ← isAtEnd then previous
  else
    modify fun b => { b with current := b.current + 1 }
    previous

/-- A complaint about the next token. -/
def fail (cause : ParseCause) : Buffered α := do
  let t ← peek
  throw (.error ⟨cause, t.place⟩)

/-- A complaint about a token already read. -/
def failAt (l : Lexeme) (cause : ParseCause) : Buffered α := throw (.error ⟨cause, .ofLexeme l⟩)

/-- Whether the next token is of this kind. The end of the input is of none. -/
def check (kind : Kind) : Buffered Bool := do
  if ← isAtEnd then return false
  else return (← peek).kind = kind

/-- Reads the next token if `select` takes its kind. -/
def takeIf (select : Kind → Option α) : Buffered (Option (α × Lexeme)) := do
  if ← isAtEnd then return none
  else
    match select (← peek).kind with
    | none => return none
    | some a => return some (a, (← advance).toLexeme)

/-- Reads the next token if it is of this kind, and says whether it was. -/
def accept (kind : Kind) : Buffered Bool := do
  if ← check kind then
    let _ ← advance
    return true
  else
    return false

/-- Reads the next token, which must be of this kind. -/
def expect (kind : Kind) (cause : ParseCause) : Buffered Lexeme := do
  if ← check kind then return (← advance).toLexeme
  else fail cause

def freshId : Buffered ExprId := fun b => .ok b.nextId { b with nextId := b.nextId + 1 }

def separated (item : Buffered α) (overflow : ParseCause) : (room : Nat) → Buffered (List α)
  | 0 => fail overflow
  | room + 1 => do
    let first ← item
    if ← accept (.symbol .comma) then
      return first :: (← separated item overflow room)
    else
      return [first]

def parenthesized (item : Buffered α) (overflow unclosed : ParseCause) :
    Buffered (List α × Lexeme) := do
  let items ←
    if ← check (.symbol .rightParen) then pure []
    else separated item overflow Parse.listLimit
  return (items, ← expect (.symbol .rightParen) unclosed)

/-! Expressions. -/

def primary (expression : Buffered Expr) : Buffered Expr := do
  match ← takeIf PrimaryStart.ofKind? with
  | none => fail .expression
  | some (.literal value, _) => return .literal (← freshId) value
  | some (.this, keyword) => return .this (← freshId) keyword
  | some (.name, name) => return .var (← freshId) name
  | some (.group, _) => do
    let inner ← expression
    let _ ← expect (.symbol .rightParen) .groupClose
    return .group (← freshId) inner

def calls (expression : Buffered Expr) : (fuel : Nat) → Expr → Buffered Expr
  | 0, _ => exhausted
  | fuel + 1, subject => do
    if ← accept (.symbol .leftParen) then
      let (arguments, closing) ← parenthesized expression .tooManyArguments .argumentsClose
      calls expression fuel (.call (← freshId) subject arguments closing)
    else if ← accept (.symbol .dot) then
      let property ← expect .identifier .propertyName
      calls expression fuel (.get (← freshId) subject property)
    else
      return subject

def signs : (fuel : Nat) → Buffered (List (UnaryOp × Lexeme))
  | 0 => exhausted
  | fuel + 1 => do
    match ← takeIf UnaryOp.ofKind? with
    | none => return []
    | some sign => return sign :: (← signs fuel)

def signed : List (UnaryOp × Lexeme) → Expr → Buffered Expr
  | [], operand => return operand
  | (op, sign) :: rest, operand => do
    let inner ← signed rest operand
    return .unary (← freshId) op sign inner

def unary (fuel : Nat) (expression : Buffered Expr) : Buffered Expr := do
  let before ← signs (fuel + 1)
  let operand ← calls expression fuel (← primary expression)
  signed before operand

def chainFrom (level : Level) (operand : Buffered Expr) : (fuel : Nat) → Expr → Buffered Expr
  | 0, _ => exhausted
  | fuel + 1, left => do
    match ← takeIf level with
    | none => return left
    | some (op, sign) => do
      let right ← operand
      chainFrom level operand fuel (op.node (← freshId) sign left right)

def chain (fuel : Nat) (level : Level) (operand : Buffered Expr) : Buffered Expr := do
  chainFrom level operand fuel (← operand)

def operation (fuel : Nat) (expression : Buffered Expr) : Buffered Expr :=
  Level.all.foldr (chain fuel) (unary fuel expression)

def assignment (fuel : Nat) (expression : Buffered Expr) : Buffered Expr := do
  let target ← operation fuel expression
  if ← accept (.symbol .equal) then
    let sign ← previous
    let value ← expression
    match target with
    | .var _ name => return .assign (← freshId) name value
    | .get _ object property => return .set (← freshId) object property value
    | _ => failAt sign.toLexeme .assignmentTarget
  else
    return target

def expression : (fuel : Nat) → Buffered Expr
  | 0 => exhausted
  | fuel + 1 => assignment fuel (expression fuel)

/-- One expression and nothing after it. -/
def soleExpression (fuel : Nat) : Buffered Expr := do
  let e ← expression fuel
  if ← isAtEnd then return e
  else fail .endOfExpression

/-! Statements. -/

def optionalBefore (ending : Kind) (fuel : Nat) : Buffered (Option Expr) := do
  if ← check ending then return none
  else return some (← expression fuel)

def expressionStatement (fuel : Nat) : Buffered Stmt := do
  let value ← expression fuel
  let _ ← expect (.symbol .semicolon) .expressionEnd
  return .expression value

def varDeclaration (fuel : Nat) : Buffered Stmt := do
  let name ← expect .identifier .variableName
  let initial ←
    if ← accept (.symbol .equal) then pure (some (← expression fuel)) else pure none
  let _ ← expect (.symbol .semicolon) .variableEnd
  return .var name initial

def printStatement (fuel : Nat) : Buffered Stmt := do
  let value ← expression fuel
  let _ ← expect (.symbol .semicolon) .printEnd
  return .print value

def returnStatement (fuel : Nat) (keyword : Lexeme) : Buffered Stmt := do
  let value ← optionalBefore (.symbol .semicolon) fuel
  let _ ← expect (.symbol .semicolon) .returnEnd
  return .returns keyword value

def ifStatement (fuel : Nat) (statement : Buffered Stmt) : Buffered Stmt := do
  let _ ← expect (.symbol .leftParen) .ifOpen
  let condition ← expression fuel
  let _ ← expect (.symbol .rightParen) .ifClose
  let yes ← statement
  if ← accept (.keyword .kwElse) then
    return .ifElse condition yes (← statement)
  else
    return .ifThen condition yes

def whileStatement (fuel : Nat) (statement : Buffered Stmt) : Buffered Stmt := do
  let _ ← expect (.symbol .leftParen) .whileOpen
  let condition ← expression fuel
  let _ ← expect (.symbol .rightParen) .whileClose
  return .whileLoop condition (← statement)

def forFirst (fuel : Nat) : Buffered (Option Stmt) := do
  if ← accept (.symbol .semicolon) then return none
  else if ← accept (.keyword .kwVar) then return some (← varDeclaration fuel)
  else return some (← expressionStatement fuel)

def forStatement (fuel : Nat) (statement : Buffered Stmt) : Buffered Stmt := do
  let _ ← expect (.symbol .leftParen) .forOpen
  let first ← forFirst fuel
  let condition ← optionalBefore (.symbol .semicolon) fuel
  let _ ← expect (.symbol .semicolon) .forConditionEnd
  let step ← optionalBefore (.symbol .rightParen) fuel
  let _ ← expect (.symbol .rightParen) .forClose
  let body ← statement
  let condition ← match condition with
    | some e => pure e
    | none => pure (.literal (← freshId) (.boolean true))
  return .forLoop first condition step body

def untilBrace (item : Buffered α) : (fuel : Nat) → Buffered (List α)
  | 0 => exhausted
  | fuel + 1 => do
    if ← check (.symbol .rightBrace) then return []
    else if ← isAtEnd then return []
    else
      let first ← item
      return first :: (← untilBrace item fuel)

def block (fuel : Nat) (declaration : Buffered Stmt) : Buffered (List Stmt) := do
  let body ← untilBrace declaration fuel
  let _ ← expect (.symbol .rightBrace) .blockClose
  return body

def function (fuel : Nat) (declaration : Buffered Stmt) (role : FunctionRole) :
    Buffered FunctionDecl := do
  let name ← expect .identifier (.functionName role)
  let _ ← expect (.symbol .leftParen) (.parametersOpen role)
  let (params, _) ←
    parenthesized (expect .identifier .parameterName) .tooManyParameters .parametersClose
  let _ ← expect (.symbol .leftBrace) (.bodyOpen role)
  return .mk name params (← block fuel declaration)

def superclass : Buffered (Option Superclass) := do
  if ← accept (.symbol .less) then
    let name ← expect .identifier .superclassName
    return some ⟨← freshId, name⟩
  else
    return none

def classDeclaration (fuel : Nat) (declaration : Buffered Stmt) : Buffered Stmt := do
  let name ← expect .identifier .className
  let parent ← superclass
  let _ ← expect (.symbol .leftBrace) .classOpen
  let methods ← untilBrace (function fuel declaration .method) fuel
  let _ ← expect (.symbol .rightBrace) .classClose
  return .classDecl name parent methods

def statementWith (fuel : Nat) (statement declaration : Buffered Stmt) : Buffered Stmt := do
  match ← takeIf Parse.StatementStart.ofKind? with
  | some (.forLoop, _) => forStatement fuel statement
  | some (.ifElse, _) => ifStatement fuel statement
  | some (.whileLoop, _) => whileStatement fuel statement
  | some (.returns, keyword) => returnStatement fuel keyword
  | some (.block, _) => return .block (← block fuel declaration)
  | some (.print, _) => printStatement fuel
  | none => expressionStatement (fuel + 1)

def declarationWith (fuel : Nat) (statement declaration : Buffered Stmt) : Buffered Stmt := do
  match ← takeIf Parse.DeclarationStart.ofKind? with
  | some (.classDecl, _) => classDeclaration fuel declaration
  | some (.function, _) => return .function (← function fuel declaration .function)
  | some (.var, _) => varDeclaration fuel
  | none => statementWith fuel statement declaration

mutual

def statement : (fuel : Nat) → Buffered Stmt
  | 0 => exhausted
  | fuel + 1 => statementWith fuel (statement fuel) (declaration fuel)

def declaration : (fuel : Nat) → Buffered Stmt
  | 0 => exhausted
  | fuel + 1 => declarationWith fuel (statement fuel) (declaration fuel)

end

/-! Programs. -/

/-- Goes on to the end, to behind a semicolon or to in front of a keyword that begins a
statement. -/
def skip : (fuel : Nat) → Buffered Unit
  | 0 => exhausted
  | fuel + 1 => do
    if ← isAtEnd then return
    else if (← previous).kind = .symbol .semicolon then return
    else if Recovery.startsStatement (← peek).kind then return
    else
      let _ ← advance
      skip fuel

/-- Recovers from an error: drops the token it arose at, whatever it is, and those that follow. -/
def synchronize (fuel : Nat) : Buffered Unit := do
  let _ ← advance
  skip fuel

/-- One round of a program's loop: a declaration, or the complaint after which it goes on. -/
def round (fuel : Nat) : Buffered (Except ParseError Stmt) := fun b =>
  match declaration fuel b with
  | .ok s b => .ok (.ok s) b
  | .error (.error e) b =>
    match synchronize fuel b with
    | .ok _ b => .ok (.error e) b
    | .error halt b => .error halt b
  | .error halt b => .error halt b

/-- The statements and errors of a program, in order. -/
def program : (fuel : Nat) → Buffered (List Stmt × List ParseError)
  | 0 => exhausted
  | fuel + 1 => do
    if ← isAtEnd then return ([], [])
    else
      match ← round (fuel + 1) with
      | .ok s =>
        let (statements, errors) ← program fuel
        return (s :: statements, errors)
      | .error e =>
        let (statements, errors) ← program fuel
        return (statements, e :: errors)

end Buffered
end ScopeScript
