import ScopeScript.Token

/-! Where in a source a complaint points: at a lexeme, or at the end of the input. -/
namespace ScopeScript

structure Place where
  line : Nat
  found : Option String
  deriving DecidableEq, Repr

namespace Place

def ofLexeme (l : Lexeme) : Place := ⟨l.line, some l.text⟩

def ofEnd (line : Nat) : Place := ⟨line, none⟩

def text (p : Place) : String :=
  match p.found with
  | none => " at end"
  | some lexeme => " at '" ++ lexeme ++ "'"

end Place
end ScopeScript
