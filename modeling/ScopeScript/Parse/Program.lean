import ScopeScript.Parse.Statement

/-! Parsing a program. After an error the parser goes on at the next likely statement, so
every error of the input is reported. -/
namespace ScopeScript

namespace Recovery

/-- Whether a token of this kind begins a statement or declaration by its keyword. -/
def startsStatement : Kind → Bool
  | .keyword .kwClass | .keyword .kwFun | .keyword .kwVar | .keyword .kwFor | .keyword .kwIf
  | .keyword .kwWhile | .keyword .kwPrint | .keyword .kwReturn => true
  | _ => false

/-- The tokens to go on with after an error: at least one is dropped, and reading resumes
behind a semicolon or in front of a keyword that begins a statement. -/
def resume : List Token → List Token
  | [] => []
  | t :: rest =>
    if t.kind = .symbol .semicolon || rest.head?.any (startsStatement ·.kind) then rest
    else resume rest

end Recovery

/-- The statements and errors of a program, in order, and the number of the next node. -/
structure Parsed where
  statements : List Stmt
  errors : List ParseError
  nextId : ExprId

/-- Declarations up to the end of the input. -/
def parseFrom : (bound : Nat) → Cursor → Parsed
  | 0, c => ⟨[], [], c.nextId⟩
  | bound + 1, c =>
    match c.rest with
    | [] => ⟨[], [], c.nextId⟩
    | _ :: _ =>
      match Parse.declaration (bound + 1) c with
      | .ok s c =>
        let more := parseFrom bound c
        { more with statements := s :: more.statements }
      | .error e c =>
        let more := parseFrom bound { c with rest := Recovery.resume c.rest }
        { more with errors := e :: more.errors }

/-- Reads a token list as a program, numbering expression nodes from `nextId`. -/
def parseTokens (tokens : List Token) (nextId : ExprId) : Parsed :=
  let cursor := Cursor.ofTokens tokens nextId
  parseFrom cursor.rest.length cursor

/-- The statements of a program without errors. -/
def Parsed.result (p : Parsed) : Except (List ParseError) (List Stmt) :=
  if p.errors.isEmpty then .ok p.statements else .error p.errors

end ScopeScript
