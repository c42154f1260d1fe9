import ScopeScript.Machine.State
import ScopeScript.Parse.Error
import ScopeScript.Text.Utf8
import ScopeScript.Token.Scan

/-! Everything that can be reported to the user, with its text and exit code. -/
namespace ScopeScript

inductive Diagnostic where
  | lexical (e : LexicalError)
  | parse (e : ParseError)
  | scope (e : ScopeError)
  | runtime (e : RuntimeError)
  | output (e : SinkError)
  | encoding (e : Utf8.Malformed)
  deriving DecidableEq, Repr

namespace Diagnostic

/-- The bare complaint. Complaints about bytes have no line to leave out. -/
def message : Diagnostic → String
  | lexical e => e.cause.message
  | parse e => e.cause.message
  | scope e => e.cause.message
  | runtime e => e.cause.message
  | output e => "I/O error: " ++ e.message
  | encoding e => e.message

def line? : Diagnostic → Option Nat
  | lexical e => some e.line
  | parse e => some e.place.line
  | scope e => some e.place.line
  | runtime e => some e.line
  | output _ | encoding _ => none

/-- Where a complaint about a lexeme points. -/
def location? : Diagnostic → Option String
  | parse e => some e.place.text
  | scope e => some e.place.text
  | _ => none

/-- A static complaint: its line, its location and its message. -/
def staticText (line : Nat) (location message : String) : String :=
  "[line " ++ toString line ++ "] Error" ++ location ++ ": " ++ message

/-- The complaint as it is reported. -/
def text : Diagnostic → String
  | lexical e => staticText e.line "" e.cause.message
  | parse e => staticText e.place.line e.place.text e.cause.message
  | scope e => staticText e.place.line e.place.text e.cause.message
  | runtime e => e.cause.message ++ "\n[line " ++ toString e.line ++ "]"
  | output e => "I/O error: " ++ e.message
  | encoding e => e.message

def exitCode : Diagnostic → Nat
  | lexical _ | parse _ | scope _ => 65
  | runtime _ => 70
  | output _ | encoding _ => 74

end Diagnostic
end ScopeScript
