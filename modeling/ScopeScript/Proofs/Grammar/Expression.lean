import ScopeScript.Parse.Expression
import ScopeScript.Proofs.Tree.Relabel

/-! The grammar of expressions and the trees of its derivations. A derivation is told by its
phrase, the tokens it covers and its tree, whose nodes are not numbered. Tokens are matched by their
kinds. The repetitions `x ( op x )*` are read from the left: all but the last round stand on the
left of its operator.

    expression → assignment
    assignment → ( call "." )? IDENT "=" assignment | logic_or
    logic_or   → logic_and ( "or" logic_and )*
    logic_and  → equality ( "and" equality )*
    equality   → comparison ( ( "!=" | "==" ) comparison )*
    comparison → term ( ( ">" | ">=" | "<" | "<=" ) term )*
    term       → factor ( ( "-" | "+" ) factor )*
    factor     → unary ( ( "/" | "*" ) unary )*
    unary      → ( "!" | "-" ) unary | call
    call       → primary ( "(" arguments? ")" | "." IDENT )*
    arguments  → expression ( "," expression )*
    primary    → NUMBER | STRING | "true" | "false" | "nil" | "this" | IDENT | "(" expression ")"
-/
namespace ScopeScript.Grammar

/-- The precedences of infix operators, the loosest first. -/
inductive Tier where
  | logicOr | logicAnd | equality | comparison | term | factor

inductive Phrase where
  | expression
  | assignment
  | tier (t : Tier)
  | unary
  | call
  | primary

/-- What stands on both sides of the operators of a tier. -/
def Tier.operand : Tier → Phrase
  | logicOr => .tier .logicAnd
  | logicAnd => .tier .equality
  | equality => .tier .comparison
  | comparison => .tier .term
  | term => .tier .factor
  | factor => .unary

/-- The operators of each tier. -/
inductive Operator : Tier → Kind → InfixOp → Prop where
  | or : Operator .logicOr (.keyword .kwOr) (.logical .or)
  | and : Operator .logicAnd (.keyword .kwAnd) (.logical .and)
  | notEqual : Operator .equality (.symbol .bangEqual) (.binary .notEqual)
  | equal : Operator .equality (.symbol .equalEqual) (.binary .equal)
  | greater : Operator .comparison (.symbol .greater) (.binary .greater)
  | greaterEqual : Operator .comparison (.symbol .greaterEqual) (.binary .greaterEqual)
  | less : Operator .comparison (.symbol .less) (.binary .less)
  | lessEqual : Operator .comparison (.symbol .lessEqual) (.binary .lessEqual)
  | subtract : Operator .term (.symbol .minus) (.binary .subtract)
  | add : Operator .term (.symbol .plus) (.binary .add)
  | divide : Operator .factor (.symbol .slash) (.binary .divide)
  | multiply : Operator .factor (.symbol .star) (.binary .multiply)

/-- The operators in front of an operand. -/
inductive Sign : Kind → UnaryOp → Prop where
  | not : Sign (.symbol .bang) .not
  | negate : Sign (.symbol .minus) .negate

/-- The tokens that are literals. -/
inductive Constant : Kind → Literal → Prop where
  | number (value : Float) : Constant (.number value) (.number value)
  | string (contents : String) : Constant (.string contents) (.string contents)
  | true : Constant (.keyword .kwTrue) (.boolean true)
  | false : Constant (.keyword .kwFalse) (.boolean false)
  | nil : Constant (.keyword .kwNil) .nil

/-- A passage of tokens and the tree that is read from it. -/
structure Passage (α : Type) where
  tokens : List Token
  tree : α

/-- Items with commas between them, possibly none. -/
inductive Listed : List (List Token) → List Token → Prop where
  | none : Listed [] []
  | one (item : List Token) : Listed [item] item
  | more {item next ts : List Token} {comma : Token} {rest : List (List Token)} :
      comma.kind = .symbol .comma → Listed (next :: rest) ts →
      Listed (item :: next :: rest) (item ++ comma :: ts)

/-- The most items that a list of parameters or arguments may have. -/
def mostItems : Nat := 255

/-- Derivations of expressions. -/
inductive Derives : Phrase → List Token → Expr → Prop where
  | expression {ts : List Token} {e : Expr} : Derives .assignment ts e → Derives .expression ts e
  | assign {name sign : Token} {ts : List Token} {value : Expr} : name.kind = .identifier →
      sign.kind = .symbol .equal → Derives .assignment ts value →
      Derives .assignment (name :: sign :: ts) (.assign 0 name.toLexeme value)
  | set {ts us : List Token} {dot name sign : Token} {object value : Expr} :
      Derives .call ts object → dot.kind = .symbol .dot → name.kind = .identifier →
      sign.kind = .symbol .equal → Derives .assignment us value →
      Derives .assignment (ts ++ dot :: name :: sign :: us) (.set 0 object name.toLexeme value)
  | operation {ts : List Token} {e : Expr} : Derives (.tier .logicOr) ts e →
      Derives .assignment ts e
  | operand {t : Tier} {ts : List Token} {e : Expr} : Derives t.operand ts e →
      Derives (.tier t) ts e
  | infixed {t : Tier} {ts us : List Token} {sign : Token} {op : InfixOp} {left right : Expr} :
      Derives (.tier t) ts left → Operator t sign.kind op → Derives t.operand us right →
      Derives (.tier t) (ts ++ sign :: us) (op.node 0 sign.toLexeme left right)
  | signed {sign : Token} {op : UnaryOp} {ts : List Token} {e : Expr} : Sign sign.kind op →
      Derives .unary ts e → Derives .unary (sign :: ts) (.unary 0 op sign.toLexeme e)
  | unsigned {ts : List Token} {e : Expr} : Derives .call ts e → Derives .unary ts e
  | primary {ts : List Token} {e : Expr} : Derives .primary ts e → Derives .call ts e
  | call {ts us : List Token} {opening closing : Token} {callee : Expr}
      {arguments : List (Passage Expr)} : Derives .call ts callee →
      opening.kind = .symbol .leftParen → (∀ a ∈ arguments, Derives .expression a.tokens a.tree) →
      Listed (arguments.map Passage.tokens) us → arguments.length ≤ mostItems →
      closing.kind = .symbol .rightParen →
      Derives .call (ts ++ opening :: (us ++ [closing]))
        (.call 0 callee (arguments.map Passage.tree) closing.toLexeme)
  | get {ts : List Token} {dot name : Token} {object : Expr} : Derives .call ts object →
      dot.kind = .symbol .dot → name.kind = .identifier →
      Derives .call (ts ++ [dot, name]) (.get 0 object name.toLexeme)
  | literal {token : Token} {value : Literal} : Constant token.kind value →
      Derives .primary [token] (.literal 0 value)
  | this {keyword : Token} : keyword.kind = .keyword .kwThis →
      Derives .primary [keyword] (.this 0 keyword.toLexeme)
  | var {name : Token} : name.kind = .identifier →
      Derives .primary [name] (.var 0 name.toLexeme)
  | group {opening closing : Token} {ts : List Token} {inner : Expr} :
      opening.kind = .symbol .leftParen → Derives .expression ts inner →
      closing.kind = .symbol .rightParen →
      Derives .primary (opening :: (ts ++ [closing])) (.group 0 inner)

/-- The tokens that an expression can begin with. -/
inductive Begins : Kind → Prop where
  | sign {k : Kind} {op : UnaryOp} : Sign k op → Begins k
  | constant {k : Kind} {value : Literal} : Constant k value → Begins k
  | this : Begins (.keyword .kwThis)
  | name : Begins .identifier
  | group : Begins (.symbol .leftParen)

namespace Derives
variable {n : Phrase} {t : Tier} {ts : List Token} {e : Expr}

theorem begins (derives : Derives n ts e) : ∃ first us, ts = first :: us ∧ Begins first.kind := by
  induction derives with
  | expression _ ih | operation _ ih | operand _ ih | unsigned _ ih | primary _ ih => exact ih
  | assign name => exact ⟨_, _, rfl, name ▸ .name⟩
  | set _ _ _ _ _ ih _ | infixed _ _ _ ih _ | call _ _ _ _ _ _ ih _ | get _ _ _ ih =>
    obtain ⟨first, us, rfl, begins⟩ := ih
    exact ⟨first, _, rfl, begins⟩
  | signed sign => exact ⟨_, _, rfl, .sign sign⟩
  | literal constant => exact ⟨_, _, rfl, .constant constant⟩
  | this keyword => exact ⟨_, _, rfl, keyword ▸ .this⟩
  | var name => exact ⟨_, _, rfl, name ▸ .name⟩
  | group opening => exact ⟨_, _, rfl, opening ▸ .group⟩

theorem length_pos (derives : Derives n ts e) : 0 < ts.length := by
  obtain ⟨first, us, rfl, _⟩ := derives.begins
  exact Nat.succ_pos _

/-- No sign stands in front of a call. -/
theorem unsigned_begins (derives : Derives .call ts e) :
    ∃ first us, ts = first :: us ∧ ∀ op, ¬ Sign first.kind op := by
  generalize isCall : Phrase.call = n at derives
  induction derives with
  | expression | assign | set | operation | operand | infixed | signed | unsigned | literal | this
  | var | group => cases isCall
  | primary primary =>
    cases primary with
    | literal constant =>
      refine ⟨_, _, rfl, fun op sign => ?_⟩
      generalize Token.kind _ = k at constant sign
      cases constant <;> cases sign
    | this isThis | var isThis | group isThis =>
      refine ⟨_, _, rfl, fun op sign => ?_⟩
      rw [isThis] at sign
      cases sign
  | call _ _ _ _ _ _ ih _ | get _ _ _ ih =>
    obtain ⟨first, us, rfl, unsigned⟩ := ih rfl
    exact ⟨first, _, rfl, unsigned⟩

/-- A tree without an operator at its root comes from a single operand. -/
theorem of_tier (derives : Derives (.tier t) ts e)
    (plain : ∀ (op : InfixOp) id sign left right, e ≠ op.node id sign left right) :
    Derives t.operand ts e := by
  cases derives with
  | operand inner => exact inner
  | infixed => exact absurd rfl (plain _ _ _ _ _)

/-- A name or property that stands where an operation may is a call by itself. -/
theorem call_of_operation (derives : Derives (.tier .logicOr) ts e)
    (plain : ∀ (op : InfixOp) id sign left right, e ≠ op.node id sign left right)
    (unsigned : ∀ id op sign operand, e ≠ .unary id op sign operand) : Derives .call ts e := by
  have equality := ((derives.of_tier plain).of_tier plain).of_tier plain
  have unary := ((equality.of_tier plain).of_tier plain).of_tier plain
  cases unary with
  | signed => exact absurd rfl (unsigned _ _ _ _)
  | unsigned call => exact call

theorem name_of_operation {name : Lexeme} (derives : Derives (.tier .logicOr) ts (.var 0 name)) :
    ∃ t : Token, ts = [t] ∧ t.kind = .identifier ∧ t.toLexeme = name := by
  have call := derives.call_of_operation (by rintro (_ | _) <;> nofun) nofun
  cases call with
  | primary primary =>
    cases primary with
    | var isName => exact ⟨_, rfl, isName, rfl⟩

theorem property_of_operation {object : Expr} {property : Lexeme}
    (derives : Derives (.tier .logicOr) ts (.get 0 object property)) :
    ∃ us, ∃ dot name : Token, ts = us ++ [dot, name] ∧ Derives .call us object ∧
      dot.kind = .symbol .dot ∧ name.kind = .identifier ∧ name.toLexeme = property := by
  have call := derives.call_of_operation (by rintro (_ | _) <;> nofun) nofun
  cases call with
  | primary primary => cases primary
  | get inner isDot isName => exact ⟨_, _, _, rfl, inner, isDot, isName, rfl⟩

end Derives
end ScopeScript.Grammar
