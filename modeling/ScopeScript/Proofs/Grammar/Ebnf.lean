import Mathlib.Computability.Language
import Mathlib.Order.CompletePartialOrder
import ScopeScript.Parse.Statement
import ScopeScript.Proofs.Grammar.Expression

/-! The grammar as rules in extended Backus-Naur form, and the words of their symbols. In two places
the rules are wider than the derivations of trees: any operation may stand in front of an `=`, and
parameters and arguments may be as many as they like.

    program     → declaration* EOF
    declaration → classDecl | funDecl | varDecl | statement
    classDecl   → "class" IDENT ( "<" IDENT )? "{" function* "}"
    funDecl     → "fun" function
    function    → IDENT "(" parameters? ")" block
    parameters  → IDENT ( "," IDENT )*
    varDecl     → "var" IDENT ( "=" expression )? ";"
    statement   → exprStmt | forStmt | ifStmt | printStmt | returnStmt | whileStmt | block
    exprStmt    → expression ";"
    forStmt     → "for" "(" ( varDecl | exprStmt | ";" ) expression? ";" expression? ")" statement
    ifStmt      → "if" "(" expression ")" statement ( "else" statement )?
    printStmt   → "print" expression ";"
    returnStmt  → "return" expression? ";"
    whileStmt   → "while" "(" expression ")" statement
    block       → "{" declaration* "}"
    expression  → assignment
    assignment  → logic_or "=" assignment | logic_or
    logic_or    → logic_and ( "or" logic_and )*
    logic_and   → equality ( "and" equality )*
    equality    → comparison ( ( "!=" | "==" ) comparison )*
    comparison  → term ( ( ">" | ">=" | "<" | "<=" ) term )*
    term        → factor ( ( "-" | "+" ) factor )*
    factor      → unary ( ( "/" | "*" ) unary )*
    unary       → ( "!" | "-" ) unary | call
    call        → primary ( "(" arguments? ")" | "." IDENT )*
    arguments   → expression ( "," expression )*
    primary     → NUMBER | STRING | "true" | "false" | "nil" | "this" | IDENT | "(" expression ")"
-/
namespace ScopeScript.Grammar
open Computability

inductive Nonterminal where
  | program | declaration | classDecl | funDecl | function | parameters | varDecl
  | statement | exprStmt | forStmt | ifStmt | printStmt | returnStmt | whileStmt | block
  | expression | assignment | logicOr | logicAnd | equality | comparison | term | factor
  | unary | call | arguments | primary

/-- Right-hand sides of rules. -/
inductive Ebnf where
  | empty
  | token (k : Kind)
  | number
  | string
  | phrase (n : Nonterminal)
  | seq (a b : Ebnf)
  | either (a b : Ebnf)
  | many (a : Ebnf)

namespace Ebnf

instance : Mul Ebnf := ⟨seq⟩

instance : Add Ebnf := ⟨either⟩

abbrev sign (s : Symbol) : Ebnf := token (.symbol s)

abbrev word (k : Keyword) : Ebnf := token (.keyword k)

abbrev name : Ebnf := token .identifier

def optional (a : Ebnf) : Ebnf := empty + a

/-- Operands with operators between them. -/
def chain (operand : Nonterminal) (operators : Ebnf) : Ebnf :=
  phrase operand * many (operators * phrase operand)

end Ebnf

open Ebnf in
def rule : Nonterminal → Ebnf
  | .program => many (phrase .declaration) * token .endOfInput
  | .declaration =>
    phrase .classDecl + phrase .funDecl + phrase .varDecl + phrase .statement
  | .classDecl => word .kwClass * name * optional (sign .less * name) * sign .leftBrace *
    many (phrase .function) * sign .rightBrace
  | .funDecl => word .kwFun * phrase .function
  | .function => name * sign .leftParen * optional (phrase .parameters) * sign .rightParen *
    phrase .block
  | .parameters => name * many (sign .comma * name)
  | .varDecl =>
    word .kwVar * name * optional (sign .equal * phrase .expression) * sign .semicolon
  | .statement => phrase .exprStmt + phrase .forStmt + phrase .ifStmt + phrase .printStmt +
    phrase .returnStmt + phrase .whileStmt + phrase .block
  | .exprStmt => phrase .expression * sign .semicolon
  | .forStmt => word .kwFor * sign .leftParen *
    (phrase .varDecl + phrase .exprStmt + sign .semicolon) * optional (phrase .expression) *
    sign .semicolon * optional (phrase .expression) * sign .rightParen * phrase .statement
  | .ifStmt => word .kwIf * sign .leftParen * phrase .expression * sign .rightParen *
    phrase .statement * optional (word .kwElse * phrase .statement)
  | .printStmt => word .kwPrint * phrase .expression * sign .semicolon
  | .returnStmt => word .kwReturn * optional (phrase .expression) * sign .semicolon
  | .whileStmt => word .kwWhile * sign .leftParen * phrase .expression * sign .rightParen *
    phrase .statement
  | .block => sign .leftBrace * many (phrase .declaration) * sign .rightBrace
  | .expression => phrase .assignment
  | .assignment => phrase .logicOr * sign .equal * phrase .assignment + phrase .logicOr
  | .logicOr => chain .logicAnd (word .kwOr)
  | .logicAnd => chain .equality (word .kwAnd)
  | .equality => chain .comparison (sign .bangEqual + sign .equalEqual)
  | .comparison =>
    chain .term (sign .greater + sign .greaterEqual + sign .less + sign .lessEqual)
  | .term => chain .factor (sign .minus + sign .plus)
  | .factor => chain .unary (sign .slash + sign .star)
  | .unary => (sign .bang + sign .minus) * phrase .unary + phrase .call
  | .call => phrase .primary *
    many (sign .leftParen * optional (phrase .arguments) * sign .rightParen + sign .dot * name)
  | .arguments => phrase .expression * many (sign .comma * phrase .expression)
  | .primary => number + string + word .kwTrue + word .kwFalse + word .kwNil + word .kwThis +
    name + sign .leftParen * phrase .expression * sign .rightParen

/-- The kinds of tokens that a right-hand side stands for. -/
inductive Matches : Ebnf → List Kind → Prop where
  | empty : Matches .empty []
  | token (k : Kind) : Matches (.token k) [k]
  | number (value : Float) : Matches .number [.number value]
  | string (contents : String) : Matches .string [.string contents]
  | phrase {n : Nonterminal} {w : List Kind} : Matches (rule n) w → Matches (.phrase n) w
  | seq {a b : Ebnf} {u w : List Kind} : Matches a u → Matches b w → Matches (.seq a b) (u ++ w)
  | left {a b : Ebnf} {w : List Kind} : Matches a w → Matches (.either a b) w
  | right {a b : Ebnf} {w : List Kind} : Matches b w → Matches (.either a b) w
  | none {a : Ebnf} : Matches (.many a) []
  | more {a : Ebnf} {u w : List Kind} : Matches a u → Matches (.many a) w →
      Matches (.many a) (u ++ w)

/-- The words of a right-hand side. -/
def words (g : Ebnf) : Language Kind := { w | Matches g w }

/-- The words of a nonterminal. -/
abbrev Nonterminal.words (n : Nonterminal) : Language Kind := Grammar.words (.phrase n)

/-! Words follow the rules. -/

@[simp] theorem words_empty : words .empty = 1 := by
  ext w
  constructor
  · rintro ⟨⟩
    rfl
  · rintro ⟨⟩
    exact .empty

@[simp] theorem words_mul (a b : Ebnf) : words (a * b) = words a * words b := by
  ext w
  rw [Language.mem_mul]
  constructor
  · rintro (_ | _ | _ | _ | _ | ⟨first, second⟩)
    exact ⟨_, first, _, second, rfl⟩
  · rintro ⟨u, first, v, second, rfl⟩
    exact .seq first second

@[simp] theorem words_add (a b : Ebnf) : words (a + b) = words a + words b := by
  ext w
  rw [Language.mem_add]
  constructor
  · rintro (_ | _ | _ | _ | _ | _ | inner | inner)
    · exact .inl inner
    · exact .inr inner
  · rintro (inner | inner)
    · exact .left inner
    · exact .right inner

@[simp] theorem words_many (a : Ebnf) : words (.many a) = (words a)∗ := by
  ext w
  rw [Language.mem_kstar]
  constructor
  · intro many
    generalize isMany : Ebnf.many a = g at many
    induction many with
    | empty | token | number | string | phrase | seq | left | right => cases isMany
    | none => exact ⟨[], rfl, nofun⟩
    | @more _ u _ first _ _ ih =>
      cases isMany
      obtain ⟨parts, rfl, each⟩ := ih rfl
      exact ⟨u :: parts, rfl, List.forall_mem_cons.mpr ⟨first, each⟩⟩
  · rintro ⟨parts, rfl, each⟩
    induction parts with
    | nil => exact .none
    | cons part rest ih =>
      obtain ⟨first, later⟩ := List.forall_mem_cons.mp each
      exact .more first (ih later)

theorem words_phrase (n : Nonterminal) : n.words = words (rule n) := by
  ext w
  constructor
  · rintro (_ | _ | _ | _ | inner)
    exact inner
  · exact .phrase

@[simp] theorem words_optional (a : Ebnf) : words (.optional a) = 1 + words a := by
  rw [Ebnf.optional, words_add, words_empty]

theorem mem_words_token {k : Kind} {w : List Kind} : w ∈ words (.token k) ↔ w = [k] := by
  constructor
  · rintro ⟨⟩
    rfl
  · rintro rfl
    exact .token k

/-- A repetition comes to its end or goes round once more. -/
theorem kstar_mul (a b : Language Kind) : a∗ * b = b + a * (a∗ * b) := by
  conv_lhs => rw [← Language.one_add_self_mul_kstar_eq_kstar]
  rw [add_mul, one_mul, mul_assoc]

/-! There is a word of everything. -/

/-- A language that has a word. -/
class Open (a : Language Kind) : Prop where
  exists_mem : ∃ w, w ∈ a

instance (k : Kind) : Open (words (.token k)) := ⟨[k], .token k⟩

instance : Open (1 : Language Kind) := ⟨[], rfl⟩

instance (a : Language Kind) : Open a∗ := ⟨[], Language.nil_mem_kstar a⟩

instance (a b : Language Kind) [some : Open a] [other : Open b] : Open (a * b) := by
  obtain ⟨u, here⟩ := some
  obtain ⟨v, there⟩ := other
  exact ⟨u ++ v, Language.append_mem_mul here there⟩

instance (a b : Language Kind) [some : Open a] : Open (a + b) := by
  obtain ⟨u, here⟩ := some
  exact ⟨u, .inl here⟩

instance (a b : Language Kind) [some : Open b] : Open (a + b) := by
  obtain ⟨u, here⟩ := some
  exact ⟨u, .inr here⟩

/-- The parts of a rule's words, from the left to the right. -/
theorem words_rule {n : Nonterminal} {g : Ebnf} (isRule : rule n = g) : n.words = words g :=
  (words_phrase n).trans (congrArg words isRule)

theorem words_chain (operand : Nonterminal) (operators : Ebnf) :
    words (.chain operand operators) = operand.words * (words operators * operand.words)∗ := by
  rw [Ebnf.chain, words_mul, words_many, words_mul]

theorem open_chain {n operand : Nonterminal} {operators : Ebnf}
    (isRule : rule n = .chain operand operators) [Open operand.words] : Open n.words := by
  rw [words_rule isRule, words_chain]
  infer_instance

instance open_words (n : Nonterminal) : Open n.words := by
  have primary : Open (Nonterminal.words .primary) := ⟨[.keyword .kwNil], .phrase
    (.left (.left (.left (.right (.token _)))))⟩
  have call : Open (Nonterminal.words .call) := by
    rw [words_phrase, rule, words_mul, words_many]
    infer_instance
  have unary : Open (Nonterminal.words .unary) := by
    rw [words_phrase, rule, words_add]
    infer_instance
  have factor := open_chain (n := .factor) rfl
  have term := open_chain (n := .term) rfl
  have comparison := open_chain (n := .comparison) rfl
  have equality := open_chain (n := .equality) rfl
  have logicAnd := open_chain (n := .logicAnd) rfl
  have logicOr := open_chain (n := .logicOr) rfl
  have assignment : Open (Nonterminal.words .assignment) := by
    rw [words_phrase, rule, words_add]
    infer_instance
  have expression : Open (Nonterminal.words .expression) := by
    rw [words_phrase, rule]
    infer_instance
  have exprStmt : Open (Nonterminal.words .exprStmt) := by
    rw [words_phrase, rule, words_mul]
    infer_instance
  have statement : Open (Nonterminal.words .statement) := by
    rw [words_phrase, rule]
    simp only [words_add]
    infer_instance
  have block : Open (Nonterminal.words .block) := by
    rw [words_phrase, rule]
    simp only [words_mul, words_many]
    infer_instance
  have function : Open (Nonterminal.words .function) := by
    rw [words_phrase, rule]
    simp only [words_mul, words_optional]
    infer_instance
  cases n with
  | primary | call | unary | factor | term | comparison | equality | logicAnd | logicOr
  | assignment | expression | exprStmt | statement | block | function => assumption
  | _ =>
    rw [words_phrase, rule]
    simp only [words_mul, words_add, words_many, words_optional]
    infer_instance

/-! First tokens. -/

/-- What is left of the words that begin with `k`. -/
def residual (k : Kind) (a : Language Kind) : Language Kind := { w | k :: w ∈ a }

theorem mem_residual {k : Kind} {w : List Kind} {a : Language Kind} :
    w ∈ residual k a ↔ k :: w ∈ a := Iff.rfl

theorem residual_add (k : Kind) (a b : Language Kind) :
    residual k (a + b) = residual k a + residual k b :=
  rfl

/-- The words are the single tokens that `p` takes. -/
def Single (a : Language Kind) (p : Kind → Bool) : Prop := ∀ w, w ∈ a ↔ ∃ k, w = [k] ∧ p k = true

section Single
variable {a b : Language Kind} {p q : Kind → Bool} {k : Kind}

theorem single_token (k : Kind) : Single (words (.token k)) (· = k) := by
  intro w
  rw [mem_words_token]
  simp

theorem single_number : Single (words .number) fun k => k matches .number _ := by
  intro w
  constructor
  · rintro ⟨⟩
    exact ⟨_, rfl, rfl⟩
  · rintro ⟨k, rfl, isNumber⟩
    cases k with
    | number value => exact .number value
    | _ => cases isNumber

theorem single_string : Single (words .string) fun k => k matches .string _ := by
  intro w
  constructor
  · rintro ⟨⟩
    exact ⟨_, rfl, rfl⟩
  · rintro ⟨k, rfl, isString⟩
    cases k with
    | string contents => exact .string contents
    | _ => cases isString

theorem Single.add (single : Single a p) (single' : Single b q) :
    Single (a + b) fun k => p k || q k := by
  intro w
  rw [Language.mem_add, single, single']
  constructor
  · rintro (⟨k, same, taken⟩ | ⟨k, same, taken⟩)
    · exact ⟨k, same, Bool.or_eq_true_iff.mpr (.inl taken)⟩
    · exact ⟨k, same, Bool.or_eq_true_iff.mpr (.inr taken)⟩
  · rintro ⟨k, same, taken⟩
    rcases Bool.or_eq_true_iff.mp taken with here | there
    · exact .inl ⟨k, same, here⟩
    · exact .inr ⟨k, same, there⟩

theorem Single.residual_mul (single : Single a p) (taken : p k = true) (b : Language Kind) :
    residual k (a * b) = b := by
  ext w
  rw [mem_residual, Language.mem_mul]
  constructor
  · rintro ⟨u, mem, v, inside, same⟩
    obtain ⟨j, rfl, -⟩ := (single u).mp mem
    obtain ⟨-, rfl⟩ := List.cons.inj same
    exact inside
  · exact fun inside => ⟨[k], (single _).mpr ⟨k, rfl, taken⟩, w, inside, rfl⟩

theorem Single.residual_mul_eq_zero (single : Single a p) (left : p k = false)
    (b : Language Kind) : residual k (a * b) = 0 := by
  ext w
  rw [mem_residual, Language.mem_mul]
  refine ⟨?_, False.elim⟩
  rintro ⟨u, mem, v, inside, same⟩
  obtain ⟨j, rfl, taken⟩ := (single u).mp mem
  obtain ⟨rfl, -⟩ := List.cons.inj same
  rw [left] at taken
  cases taken

end Single

@[simp] theorem residual_token_mul (k : Kind) (b : Language Kind) :
    residual k (words (.token k) * b) = b :=
  (single_token k).residual_mul (decide_eq_true rfl) b

theorem residual_token_mul_of_ne {k j : Kind} (other : k ≠ j) (b : Language Kind) :
    residual k (words (.token j) * b) = 0 :=
  (single_token j).residual_mul_eq_zero (decide_eq_false other) b

/-- Every word begins with a token that `p` takes. -/
def Starts (a : Language Kind) (p : Kind → Bool) : Prop :=
  ∀ w ∈ a, ∃ k rest, w = k :: rest ∧ p k = true

/-- No word begins with a token that `p` takes. -/
def Avoids (a : Language Kind) (p : Kind → Bool) : Prop := ∀ k w, k :: w ∈ a → p k = false

section First
variable {a b : Language Kind} {p q : Kind → Bool}

theorem Starts.mul (starts : Starts a p) (b : Language Kind) : Starts (a * b) p := by
  intro w mem
  obtain ⟨u, first, v, -, rfl⟩ := Language.mem_mul.mp mem
  obtain ⟨k, rest, rfl, good⟩ := starts u first
  exact ⟨k, rest ++ v, rfl, good⟩

theorem Starts.add (starts : Starts a p) (starts' : Starts b p) : Starts (a + b) p := by
  rintro w (here | there)
  · exact starts w here
  · exact starts' w there

theorem Starts.imp (starts : Starts a p) (weaker : ∀ k, p k = true → q k = true) : Starts a q := by
  intro w mem
  obtain ⟨k, rest, same, good⟩ := starts w mem
  exact ⟨k, rest, same, weaker k good⟩

theorem starts_token {k : Kind} (good : p k = true) : Starts (words (.token k)) p :=
  fun _ mem => ⟨k, [], mem_words_token.mp mem, good⟩

theorem Starts.avoids (starts : Starts a p) (apart : ∀ k, p k = true → q k = false) :
    Avoids a q := by
  intro k w mem
  obtain ⟨_, _, same, good⟩ := starts _ mem
  cases same
  exact apart k good

theorem Single.starts (single : Single a p) : Starts a p := by
  intro w mem
  obtain ⟨k, same, taken⟩ := (single w).mp mem
  exact ⟨k, [], same, taken⟩

theorem Avoids.imp (avoids : Avoids a q) (weaker : ∀ k, p k = true → q k = true) : Avoids a p := by
  intro k w mem
  by_contra taken
  have := avoids k w mem
  rw [weaker k (Bool.eq_true_of_not_eq_false taken)] at this
  cases this

theorem Avoids.add (avoids : Avoids a p) (avoids' : Avoids b p) : Avoids (a + b) p := by
  rintro k w (here | there)
  · exact avoids k w here
  · exact avoids' k w there

/-- The first token of a repetition is one of what is repeated or one of what follows. -/
theorem Avoids.kstar_mul (starts : Starts a p) (apart : ∀ k, p k = true → q k = false)
    (avoids : Avoids b q) : Avoids (a∗ * b) q := by
  rw [Grammar.kstar_mul]
  exact avoids.add ((starts.mul _).avoids apart)

theorem avoids_token_mul {k : Kind} (other : p k = false) (b : Language Kind) :
    Avoids (words (.token k) * b) p := by
  refine Starts.avoids (p := (· = k)) ((starts_token (decide_eq_true rfl)).mul b) fun j same => ?_
  rw [of_decide_eq_true same, other]

theorem Avoids.residual_eq (avoids : Avoids a p) {k : Kind} (taken : p k = true) :
    residual k a = 0 := by
  ext w
  constructor
  · intro mem
    rw [avoids k w mem] at taken
    cases taken
  · exact False.elim

end First

def opensExpression (k : Kind) : Bool :=
  (UnaryOp.ofKind? k).isSome || (PrimaryStart.ofKind? k).isSome

def opensStatement (k : Kind) : Bool :=
  opensExpression k || (Parse.StatementStart.ofKind? k).isSome

def opensDeclaration (k : Kind) : Bool :=
  opensStatement k || (Parse.DeclarationStart.ofKind? k).isSome

/-- The tokens that the words of a nonterminal can begin with. -/
def first : Nonterminal → Kind → Bool
  | .program => fun k => opensDeclaration k || k = .endOfInput
  | .declaration => opensDeclaration
  | .classDecl => (· = .keyword .kwClass)
  | .funDecl => (· = .keyword .kwFun)
  | .varDecl => (· = .keyword .kwVar)
  | .function | .parameters => (· = .identifier)
  | .statement => opensStatement
  | .forStmt => (· = .keyword .kwFor)
  | .ifStmt => (· = .keyword .kwIf)
  | .printStmt => (· = .keyword .kwPrint)
  | .returnStmt => (· = .keyword .kwReturn)
  | .whileStmt => (· = .keyword .kwWhile)
  | .block => (· = .symbol .leftBrace)
  | .primary | .call => fun k => (PrimaryStart.ofKind? k).isSome
  | .exprStmt | .expression | .assignment | .logicOr | .logicAnd | .equality | .comparison | .term
  | .factor | .unary | .arguments => opensExpression

theorem starts_primary : Starts (Nonterminal.words .primary) (first .primary) := by
  rw [words_phrase, rule]
  simp only [words_add, words_mul]
  refine .add (.add (.add (.add (.add (.add (.add ?_ ?_) ?_) ?_) ?_) ?_) ?_) ?_
  · rintro _ ⟨⟩
    exact ⟨_, _, rfl, rfl⟩
  · rintro _ ⟨⟩
    exact ⟨_, _, rfl, rfl⟩
  · exact starts_token rfl
  · exact starts_token rfl
  · exact starts_token rfl
  · exact starts_token rfl
  · exact starts_token rfl
  · exact .mul (.mul (starts_token rfl) _) _

theorem starts_chain {n operand : Nonterminal} {operators : Ebnf} {p : Kind → Bool}
    (isRule : rule n = .chain operand operators) (starts : Starts operand.words p) :
    Starts n.words p := by
  rw [words_rule isRule, words_chain]
  exact starts.mul _

/-- The token that a right-hand side begins with, if it is always the same. -/
def Ebnf.lead? : Ebnf → Option Kind
  | token k => some k
  | seq a _ => a.lead?
  | empty | number | string | phrase _ | either _ _ | many _ => none

theorem starts_of_lead {n : Nonterminal} {k : Kind} {p : Kind → Bool}
    (leads : (rule n).lead? = some k) (good : p k = true) : Starts n.words p := by
  rw [words_phrase]
  generalize rule n = g at leads
  induction g with
  | token j =>
    cases leads
    exact starts_token good
  | seq a b ih _ =>
    change Starts (words (a * b)) p
    rw [words_mul]
    exact (ih leads).mul _
  | empty | number | string | phrase | either | many => cases leads

theorem starts_words (n : Nonterminal) : Starts n.words (first n) := by
  have call : Starts (Nonterminal.words .call) (first .call) := by
    rw [words_phrase, rule, words_mul]
    exact starts_primary.mul _
  have unary : Starts (Nonterminal.words .unary) opensExpression := by
    rw [words_phrase, rule]
    simp only [words_add, words_mul, add_mul]
    refine .add (.add ((starts_token rfl).mul _) ((starts_token rfl).mul _)) (call.imp ?_)
    exact fun k primary => Bool.or_eq_true_iff.mpr (.inr primary)
  have factor := starts_chain (n := .factor) rfl unary
  have term := starts_chain (n := .term) rfl factor
  have comparison := starts_chain (n := .comparison) rfl term
  have equality := starts_chain (n := .equality) rfl comparison
  have logicAnd := starts_chain (n := .logicAnd) rfl equality
  have logicOr := starts_chain (n := .logicOr) rfl logicAnd
  have assignment : Starts (Nonterminal.words .assignment) opensExpression := by
    rw [words_phrase, rule]
    simp only [words_add, words_mul]
    exact ((logicOr.mul _).mul _).add logicOr
  have expression : Starts (Nonterminal.words .expression) opensExpression := by
    rw [words_phrase, rule]
    exact assignment
  have exprStmt : Starts (Nonterminal.words .exprStmt) opensExpression := by
    rw [words_phrase, rule, words_mul]
    exact expression.mul _
  have statement : Starts (Nonterminal.words .statement) opensStatement := by
    rw [words_phrase, rule]
    simp only [words_add]
    refine .add (.add (.add (.add (.add (.add (exprStmt.imp ?_) ?_) ?_) ?_) ?_) ?_) ?_
    · exact fun k opens => Bool.or_eq_true_iff.mpr (.inl opens)
    all_goals exact starts_of_lead rfl rfl
  have declaration : Starts (Nonterminal.words .declaration) opensDeclaration := by
    rw [words_phrase, rule]
    simp only [words_add]
    refine .add (.add (.add ?_ ?_) ?_) (statement.imp ?_)
    · exact starts_of_lead rfl rfl
    · exact starts_of_lead rfl rfl
    · exact starts_of_lead rfl rfl
    · exact fun k opens => Bool.or_eq_true_iff.mpr (.inl opens)
  cases n with
  | primary => exact starts_primary
  | call | unary | factor | term | comparison | equality | logicAnd | logicOr | assignment
  | expression | exprStmt | statement | declaration => assumption
  | classDecl | funDecl | varDecl | function | parameters | forStmt | ifStmt | printStmt
  | returnStmt | whileStmt | block => exact starts_of_lead rfl (by decide)
  | arguments =>
    rw [words_phrase, rule, words_mul]
    exact expression.mul _
  | program =>
    rw [words_phrase, rule, words_mul, words_many, kstar_mul]
    refine .add (starts_token (by rfl)) ((declaration.imp ?_).mul _)
    exact fun k opens => Bool.or_eq_true_iff.mpr (.inl opens)

/-- No word of a nonterminal begins with a token that is none of its first ones. -/
theorem residual_words_mul {n : Nonterminal} {k : Kind} (other : first n k = false)
    (b : Language Kind) : residual k (n.words * b) = 0 := by
  ext w
  constructor
  · intro mem
    obtain ⟨_, _, same, opens⟩ := (starts_words n).mul b _ mem
    cases same
    rw [other] at opens
    cases opens
  · exact False.elim

end ScopeScript.Grammar
