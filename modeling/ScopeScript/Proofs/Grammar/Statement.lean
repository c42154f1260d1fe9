import ScopeScript.Proofs.Grammar.Expression
import ScopeScript.Tree.Stmt

/-! The grammar of statements and declarations. It leaves open which `if` an `else` belongs to, so
its derivations come in two kinds: all of them, and those in which every `else` belongs to the
nearest `if` that is open. Both cover the same tokens.

    program     → declaration* EOF
    declaration → "class" IDENT ( "<" IDENT )? "{" function* "}" | "fun" function
                | varDecl | statement
    function    → IDENT "(" parameters? ")" block
    parameters  → IDENT ( "," IDENT )*
    varDecl     → "var" IDENT ( "=" expression )? ";"
    statement   → exprStmt
                | "for" "(" ( varDecl | exprStmt | ";" ) expression? ";" expression? ")" statement
                | "if" "(" expression ")" statement ( "else" statement )?
                | "print" expression ";"
                | "return" expression? ";"
                | "while" "(" expression ")" statement
                | block
    exprStmt    → expression ";"
    block       → "{" declaration* "}"
-/
namespace ScopeScript.Grammar

/-- A name by itself. -/
inductive Named : List Token → Lexeme → Prop where
  | mk {name : Token} : name.kind = .identifier → Named [name] name.toLexeme

/-- An expression that may be missing. -/
inductive Optional : List Token → Option Expr → Prop where
  | none : Optional [] none
  | some {ts : List Token} {e : Expr} : Derives .expression ts e → Optional ts (some e)

inductive ExprStmt : List Token → Stmt → Prop where
  | mk {ts : List Token} {value : Expr} {semicolon : Token} : Derives .expression ts value →
      semicolon.kind = .symbol .semicolon → ExprStmt (ts ++ [semicolon]) (.expression value)

inductive VarDecl : List Token → Stmt → Prop where
  | empty {keyword name semicolon : Token} : keyword.kind = .keyword .kwVar →
      name.kind = .identifier → semicolon.kind = .symbol .semicolon →
      VarDecl [keyword, name, semicolon] (.var name.toLexeme none)
  | initial {keyword name sign semicolon : Token} {ts : List Token} {e : Expr} :
      keyword.kind = .keyword .kwVar → name.kind = .identifier → sign.kind = .symbol .equal →
      Derives .expression ts e → semicolon.kind = .symbol .semicolon →
      VarDecl (keyword :: name :: sign :: (ts ++ [semicolon])) (.var name.toLexeme (some e))

/-- The first clause of a `for`. -/
inductive FirstClause : List Token → Option Stmt → Prop where
  | empty {semicolon : Token} : semicolon.kind = .symbol .semicolon → FirstClause [semicolon] none
  | var {ts : List Token} {s : Stmt} : VarDecl ts s → FirstClause ts (some s)
  | expression {ts : List Token} {s : Stmt} : ExprStmt ts s → FirstClause ts (some s)

/-- What a class inherits from. -/
inductive Parent : List Token → Option Superclass → Prop where
  | none : Parent [] none
  | some {sign name : Token} : sign.kind = .symbol .less → name.kind = .identifier →
      Parent [sign, name] (some ⟨0, name.toLexeme⟩)

/-- A `for` is a block of its first clause and a loop whose rounds run the body and then the last
clause. Parts that are missing leave no trace, but a missing condition is always true. -/
def desugared (first : Option Stmt) (condition step : Option Expr) (body : Stmt) : Stmt :=
  let round := step.elim body fun e => .block [body, .expression e]
  let loop := .whileLoop (condition.getD (.literal 0 (.boolean true))) round
  first.elim loop fun s => .block [s, loop]

/-- A statement is open if it ends with an `if` that has no `else`. -/
inductive StmtPhrase where
  | declaration
  | function
  | statement (isOpen : Bool)
  | block

/-- Derivations of statements and declarations. If they are `nearest`, what stands between an `if`
and its `else` is never open: the `else` would be nearer to the `if` it ends with. -/
inductive StmtDerives (nearest : Bool) : StmtPhrase → List Token → Stmt → Prop where
  | classDecl {keyword name opening closing : Token} {ts : List Token} {parent : Option Superclass}
      {methods : List (Passage FunctionDecl)} : keyword.kind = .keyword .kwClass →
      name.kind = .identifier → Parent ts parent → opening.kind = .symbol .leftBrace →
      (∀ m ∈ methods, StmtDerives nearest .function m.tokens (.function m.tree)) →
      closing.kind = .symbol .rightBrace →
      StmtDerives nearest .declaration
        (keyword :: name :: (ts ++ opening :: (methods.flatMap Passage.tokens ++ [closing])))
        (.classDecl name.toLexeme parent (methods.map Passage.tree))
  | funDecl {keyword : Token} {ts : List Token} {s : Stmt} : keyword.kind = .keyword .kwFun →
      StmtDerives nearest .function ts s → StmtDerives nearest .declaration (keyword :: ts) s
  | varDecl {ts : List Token} {s : Stmt} : VarDecl ts s → StmtDerives nearest .declaration ts s
  | statement {ts : List Token} {s : Stmt} {isOpen : Bool} :
      StmtDerives nearest (.statement isOpen) ts s → StmtDerives nearest .declaration ts s
  | function {name opening closing : Token} {ts us : List Token} {params : List (Passage Lexeme)}
      {body : List Stmt} : name.kind = .identifier → opening.kind = .symbol .leftParen →
      (∀ p ∈ params, Named p.tokens p.tree) → Listed (params.map Passage.tokens) ts →
      params.length ≤ mostItems → closing.kind = .symbol .rightParen →
      StmtDerives nearest .block us (.block body) →
      StmtDerives nearest .function (name :: opening :: (ts ++ closing :: us))
        (.function (.mk name.toLexeme (params.map Passage.tree) body))
  | exprStmt {ts : List Token} {s : Stmt} :
      ExprStmt ts s → StmtDerives nearest (.statement false) ts s
  | forStmt {keyword opening semicolon closing : Token} {ts us vs ws : List Token}
      {first : Option Stmt} {condition step : Option Expr} {body : Stmt} {isOpen : Bool} :
      keyword.kind = .keyword .kwFor → opening.kind = .symbol .leftParen → FirstClause ts first →
      Optional us condition → semicolon.kind = .symbol .semicolon → Optional vs step →
      closing.kind = .symbol .rightParen → StmtDerives nearest (.statement isOpen) ws body →
      StmtDerives nearest (.statement isOpen)
        (keyword :: opening :: (ts ++ (us ++ semicolon :: (vs ++ closing :: ws))))
        (desugared first condition step body)
  | ifThen {keyword opening closing : Token} {ts us : List Token} {condition : Expr} {yes : Stmt}
      {isOpen : Bool} : keyword.kind = .keyword .kwIf → opening.kind = .symbol .leftParen →
      Derives .expression ts condition → closing.kind = .symbol .rightParen →
      StmtDerives nearest (.statement isOpen) us yes →
      StmtDerives nearest (.statement true) (keyword :: opening :: (ts ++ closing :: us))
        (.ifThen condition yes)
  | ifElse {keyword opening closing other : Token} {ts us vs : List Token} {condition : Expr}
      {yes no : Stmt} {isOpen isOpen' : Bool} : keyword.kind = .keyword .kwIf →
      opening.kind = .symbol .leftParen → Derives .expression ts condition →
      closing.kind = .symbol .rightParen → StmtDerives nearest (.statement isOpen) us yes →
      (nearest = true → isOpen = false) → other.kind = .keyword .kwElse →
      StmtDerives nearest (.statement isOpen') vs no →
      StmtDerives nearest (.statement isOpen')
        (keyword :: opening :: (ts ++ closing :: (us ++ other :: vs))) (.ifElse condition yes no)
  | printStmt {keyword semicolon : Token} {ts : List Token} {value : Expr} :
      keyword.kind = .keyword .kwPrint → Derives .expression ts value →
      semicolon.kind = .symbol .semicolon →
      StmtDerives nearest (.statement false) (keyword :: (ts ++ [semicolon])) (.print value)
  | returnStmt {keyword semicolon : Token} {ts : List Token} {value : Option Expr} :
      keyword.kind = .keyword .kwReturn → Optional ts value →
      semicolon.kind = .symbol .semicolon →
      StmtDerives nearest (.statement false) (keyword :: (ts ++ [semicolon]))
        (.returns keyword.toLexeme value)
  | whileStmt {keyword opening closing : Token} {ts us : List Token} {condition : Expr}
      {body : Stmt} {isOpen : Bool} : keyword.kind = .keyword .kwWhile →
      opening.kind = .symbol .leftParen → Derives .expression ts condition →
      closing.kind = .symbol .rightParen → StmtDerives nearest (.statement isOpen) us body →
      StmtDerives nearest (.statement isOpen) (keyword :: opening :: (ts ++ closing :: us))
        (.whileLoop condition body)
  | blockStmt {ts : List Token} {s : Stmt} : StmtDerives nearest .block ts s →
      StmtDerives nearest (.statement false) ts s
  | block {opening closing : Token} {body : List (Passage Stmt)} :
      opening.kind = .symbol .leftBrace →
      (∀ p ∈ body, StmtDerives nearest .declaration p.tokens p.tree) →
      closing.kind = .symbol .rightBrace →
      StmtDerives nearest .block (opening :: (body.flatMap Passage.tokens ++ [closing]))
        (.block (body.map Passage.tree))

/-- The derivations of programs, up to the end of the input. -/
inductive Program (nearest : Bool) : List Token → List Stmt → Prop where
  | mk {parts : List (Passage Stmt)} :
      (∀ p ∈ parts, StmtDerives nearest .declaration p.tokens p.tree) →
      Program nearest (parts.flatMap Passage.tokens) (parts.map Passage.tree)

theorem Program.nil (nearest : Bool) : Program nearest [] [] := @Program.mk nearest [] nofun

theorem Program.cons {nearest : Bool} {ts us : List Token} {s : Stmt} {tree : List Stmt}
    (program : Program nearest us tree) (first : StmtDerives nearest .declaration ts s) :
    Program nearest (ts ++ us) (s :: tree) := by
  obtain @⟨parts, each⟩ := program
  refine @Program.mk nearest (⟨ts, s⟩ :: parts) ?_
  rintro p (_ | ⟨_, member⟩)
  · exact first
  · exact each p member

/-- What a phrase can begin with, as far as it tells phrases apart. -/
def StmtPhrase.Heads : StmtPhrase → Kind → Prop
  | .declaration, k => k ≠ .symbol .rightBrace ∧ k ≠ .keyword .kwElse
  | .function, k => k = .identifier
  | .statement _, k => (k ≠ .symbol .rightBrace ∧ k ≠ .keyword .kwElse) ∧
    k ≠ .keyword .kwClass ∧ k ≠ .keyword .kwFun ∧ k ≠ .keyword .kwVar
  | .block, k => k = .symbol .leftBrace

theorem Begins.heads {k : Kind} (begins : Begins k) (isOpen : Bool) :
    (StmtPhrase.statement isOpen).Heads k := by
  cases begins with
  | sign sign => cases sign <;> exact ⟨⟨nofun, nofun⟩, nofun, nofun, nofun⟩
  | constant constant => cases constant <;> exact ⟨⟨nofun, nofun⟩, nofun, nofun, nofun⟩
  | this | name | group => exact ⟨⟨nofun, nofun⟩, nofun, nofun, nofun⟩

theorem StmtDerives.begins {nearest : Bool} {phrase : StmtPhrase} {ts : List Token} {s : Stmt}
    (derives : StmtDerives nearest phrase ts s) :
    ∃ first us, ts = first :: us ∧ phrase.Heads first.kind := by
  induction derives with
  | classDecl keyword | funDecl keyword =>
    refine ⟨_, _, rfl, ?_⟩
    rw [keyword]
    exact ⟨nofun, nofun⟩
  | varDecl inner =>
    cases inner with
    | empty keyword | initial keyword =>
      refine ⟨_, _, rfl, ?_⟩
      rw [keyword]
      exact ⟨nofun, nofun⟩
  | statement _ ih =>
    obtain ⟨first, us, rfl, heads⟩ := ih
    exact ⟨first, us, rfl, heads.1⟩
  | function name => exact ⟨_, _, rfl, name⟩
  | exprStmt inner =>
    obtain ⟨value, _⟩ := inner
    obtain ⟨first, us, rfl, begins⟩ := value.begins
    exact ⟨first, _, rfl, begins.heads false⟩
  | forStmt keyword | ifThen keyword | ifElse keyword | printStmt keyword | returnStmt keyword
  | whileStmt keyword =>
    refine ⟨_, _, rfl, ?_⟩
    rw [keyword]
    exact ⟨⟨nofun, nofun⟩, nofun, nofun, nofun⟩
  | blockStmt _ ih =>
    obtain ⟨first, us, rfl, heads⟩ := ih
    refine ⟨first, us, rfl, ?_⟩
    rw [show first.kind = _ from heads]
    exact ⟨⟨nofun, nofun⟩, nofun, nofun, nofun⟩
  | block opening => exact ⟨_, _, rfl, opening⟩

theorem StmtDerives.length_pos {nearest : Bool} {phrase : StmtPhrase} {ts : List Token} {s : Stmt}
    (derives : StmtDerives nearest phrase ts s) : 0 < ts.length := by
  obtain ⟨first, us, rfl, _⟩ := derives.begins
  exact Nat.succ_pos _

/-! Every text that has a derivation has one with each `else` at the nearest `if`. -/

/-- Parts of which each has a tree, though not the one it came with. -/
theorem exists_parts {α β : Type} {R : List Token → β → Prop} {parts : List (Passage α)}
    (each : ∀ p ∈ parts, ∃ b, R p.tokens b) :
    ∃ others : List (Passage β), others.map Passage.tokens = parts.map Passage.tokens ∧
      ∀ p ∈ others, R p.tokens p.tree := by
  induction parts with
  | nil => exact ⟨[], rfl, nofun⟩
  | cons part rest ih =>
    obtain ⟨b, here⟩ := each part List.mem_cons_self
    obtain ⟨others, same, later⟩ := ih fun p member => each p (List.mem_cons_of_mem _ member)
    refine ⟨⟨part.tokens, b⟩ :: others, by simp [same], ?_⟩
    rintro p (_ | ⟨_, member⟩)
    · exact here
    · exact later p member

namespace StmtDerives
variable {phrase : StmtPhrase} {ts us : List Token} {s : Stmt}

/-- Where each `else` belongs may be left open again. -/
theorem anywhere (derives : StmtDerives true phrase ts s) : StmtDerives false phrase ts s := by
  induction derives with
  | classDecl keyword name parent opening _ closing ih =>
    exact classDecl keyword name parent opening ih closing
  | funDecl keyword _ ih => exact funDecl keyword ih
  | varDecl inner => exact varDecl inner
  | statement _ ih => exact statement ih
  | function name opening params listed few closing _ ih =>
    exact function name opening params listed few closing ih
  | exprStmt inner => exact exprStmt inner
  | forStmt keyword opening first condition semicolon step closing _ ih =>
    exact forStmt keyword opening first condition semicolon step closing ih
  | ifThen keyword opening condition closing _ ih =>
    exact ifThen keyword opening condition closing ih
  | ifElse keyword opening condition closing _ _ isElse _ ih ih' =>
    exact ifElse keyword opening condition closing ih nofun isElse ih'
  | printStmt keyword value semicolon => exact printStmt keyword value semicolon
  | returnStmt keyword value semicolon => exact returnStmt keyword value semicolon
  | whileStmt keyword opening condition closing _ ih =>
    exact whileStmt keyword opening condition closing ih
  | blockStmt _ ih => exact blockStmt ih
  | block opening _ closing ih => exact block opening ih closing

/-- An `else` behind an open statement goes to the `if` at its end. -/
theorem attach (derives : StmtDerives true (.statement true) ts s) {other : Token}
    (isElse : other.kind = .keyword .kwElse) {isOpen : Bool} {no : Stmt}
    (branch : StmtDerives true (.statement isOpen) us no) :
    ∃ isOpen' s', StmtDerives true (.statement isOpen') (ts ++ other :: us) s' := by
  generalize opened : StmtPhrase.statement true = phrase at derives
  induction derives with
  | classDecl | funDecl | varDecl | statement | function | block | exprStmt | printStmt
  | returnStmt | blockStmt => cases opened
  | forStmt keyword opening first condition semicolon step closing _ ih =>
    cases opened
    obtain ⟨isOpen', body, inner⟩ := ih rfl
    simp only [List.cons_append, List.append_assoc]
    exact ⟨_, _, forStmt keyword opening first condition semicolon step closing inner⟩
  | @ifThen _ _ _ _ _ _ _ isOpen keyword opening condition closing yes ih =>
    simp only [List.cons_append, List.append_assoc]
    cases isOpen with
    | true =>
      obtain ⟨isOpen', yes', inner⟩ := ih rfl
      exact ⟨_, _, ifThen keyword opening condition closing inner⟩
    | false =>
      exact ⟨_, _, ifElse keyword opening condition closing yes (fun _ => rfl) isElse branch⟩
  | ifElse keyword opening condition closing yes closed isElse' _ _ ih =>
    cases opened
    obtain ⟨isOpen', no', inner⟩ := ih rfl
    simp only [List.cons_append, List.append_assoc]
    exact ⟨_, _, ifElse keyword opening condition closing yes closed isElse' inner⟩
  | whileStmt keyword opening condition closing _ ih =>
    cases opened
    obtain ⟨isOpen', body, inner⟩ := ih rfl
    simp only [List.cons_append, List.append_assoc]
    exact ⟨_, _, whileStmt keyword opening condition closing inner⟩

/-- Tokens that have a derivation with each `else` at the nearest `if`. -/
def HasNearest : StmtPhrase → List Token → Prop
  | .declaration, ts => ∃ s, StmtDerives true .declaration ts s
  | .function, ts => ∃ f, StmtDerives true .function ts (.function f)
  | .statement _, ts => ∃ isOpen s, StmtDerives true (.statement isOpen) ts s
  | .block, ts => ∃ body, StmtDerives true .block ts (.block body)

theorem hasNearest {nearest : Bool} (derives : StmtDerives nearest phrase ts s) :
    HasNearest phrase ts := by
  induction derives with
  | classDecl keyword name parent opening _ closing ih =>
    obtain ⟨methods, same, each⟩ :=
      exists_parts (R := fun ts f => StmtDerives true .function ts (.function f)) ih
    have body := classDecl keyword name parent opening each closing
    rw [List.flatMap_def, same, ← List.flatMap_def] at body
    exact ⟨_, body⟩
  | funDecl keyword _ ih =>
    obtain ⟨f, inner⟩ := ih
    exact ⟨_, funDecl keyword inner⟩
  | varDecl inner => exact ⟨_, varDecl inner⟩
  | statement _ ih =>
    obtain ⟨isOpen, s, inner⟩ := ih
    exact ⟨s, statement inner⟩
  | function name opening params listed few closing _ ih =>
    obtain ⟨body, inner⟩ := ih
    exact ⟨_, function name opening params listed few closing inner⟩
  | exprStmt inner => exact ⟨_, _, exprStmt inner⟩
  | forStmt keyword opening first condition semicolon step closing _ ih =>
    obtain ⟨isOpen, body, inner⟩ := ih
    exact ⟨_, _, forStmt keyword opening first condition semicolon step closing inner⟩
  | ifThen keyword opening condition closing _ ih =>
    obtain ⟨isOpen, yes, inner⟩ := ih
    exact ⟨_, _, ifThen keyword opening condition closing inner⟩
  | ifElse keyword opening condition closing _ _ isElse _ ih ih' =>
    obtain ⟨isOpen, yes, inner⟩ := ih
    obtain ⟨isOpen', no, other⟩ := ih'
    cases isOpen with
    | false =>
      exact ⟨_, _, ifElse keyword opening condition closing inner (fun _ => rfl) isElse other⟩
    | true =>
      -- the `else` moves into the branch, which leaves this `if` without one
      obtain ⟨isOpen'', s', attached⟩ := inner.attach isElse other
      exact ⟨_, _, ifThen keyword opening condition closing attached⟩
  | printStmt keyword value semicolon => exact ⟨_, _, printStmt keyword value semicolon⟩
  | returnStmt keyword value semicolon => exact ⟨_, _, returnStmt keyword value semicolon⟩
  | whileStmt keyword opening condition closing _ ih =>
    obtain ⟨isOpen, body, inner⟩ := ih
    exact ⟨_, _, whileStmt keyword opening condition closing inner⟩
  | blockStmt _ ih =>
    obtain ⟨body, inner⟩ := ih
    exact ⟨_, _, blockStmt inner⟩
  | block opening _ closing ih =>
    obtain ⟨body, same, each⟩ := exists_parts ih
    have inner := block opening each closing
    rw [List.flatMap_def, same, ← List.flatMap_def] at inner
    exact ⟨_, inner⟩

end StmtDerives

theorem Program.anywhere {ts : List Token} {tree : List Stmt} (derives : Program true ts tree) :
    Program false ts tree := by
  obtain ⟨each⟩ := derives
  exact .mk fun p member => (each p member).anywhere

theorem Program.exists_nearest {nearest : Bool} {ts : List Token} {tree : List Stmt}
    (derives : Program nearest ts tree) : ∃ tree', Program true ts tree' := by
  obtain ⟨each⟩ := derives
  obtain ⟨parts, same, each'⟩ := exists_parts fun p member => (each p member).hasNearest
  have program := Program.mk each'
  rw [List.flatMap_def, same, ← List.flatMap_def] at program
  exact ⟨_, program⟩

end ScopeScript.Grammar
