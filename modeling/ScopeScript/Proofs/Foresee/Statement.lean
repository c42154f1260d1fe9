import ScopeScript.Proofs.Foresee.Expression

/-! Statements and declarations are read on as far as the grammar goes on. An `else` is taken by
the nearest `if`, and nothing is lost: whatever may follow it where it belongs to one further out
may follow it there too. -/
namespace ScopeScript
open Grammar Computability

namespace Parse
variable {α : Type} {n : Nat} {after : Language Kind}

/-! Statements, each behind the token that it begins with. -/

/-- An expression or none, in front of a token that ends both. -/
theorem predicts_optionalBefore {ending : Kind} (inner : ending ≠ .endOfInput)
    (ends : goesOn ending = false) (opens : opensExpression ending = false) [Open after] :
    Predicts n (words (.token ending) * after +
        Nonterminal.words .expression * (words (.token ending) * after))
      (words (.token ending) * after) (optionalBefore ending n) := by
  intro c size
  refine foresees_check inner (fun same => ?_) fun other => ?_
  · refine (foresees_pure none).add ?_
    rw [same]
    exact residual_words_mul (n := .expression) opens _
  · have some := (predicts_expression _ (avoids_token_mul ends after) c size).bind fun e c' _ =>
      foresees_pure (some e)
    rw [add_comm]
    exact some.add (residual_token_mul_of_ne other after)

section Simple
variable [Open after]

theorem predicts_expressionStatement :
    Predicts n (Nonterminal.words .exprStmt * after) after (expressionStatement n) := by
  rw [words_phrase, rule, words_mul, mul_assoc]
  refine (predicts_expression _ (avoids_token_mul rfl after)).bind fun e => ?_
  exact predicts_expect nofun fun _ => predicts_pure _

theorem predicts_printStatement :
    Predicts n (residual (.keyword .kwPrint) (Nonterminal.words .printStmt * after)) after
      (printStatement n) := by
  rw [words_phrase, rule]
  simp only [words_mul, mul_assoc, residual_token_mul]
  refine (predicts_expression _ (avoids_token_mul rfl after)).bind fun e => ?_
  exact predicts_expect nofun fun _ => predicts_pure _

theorem predicts_returnStatement (keyword : Lexeme) :
    Predicts n (residual (.keyword .kwReturn) (Nonterminal.words .returnStmt * after)) after
      (returnStatement n keyword) := by
  rw [words_phrase, rule]
  simp only [words_mul, words_optional, mul_assoc, residual_token_mul, add_mul, one_mul]
  refine (predicts_optionalBefore (by decide) rfl rfl).bind fun e => ?_
  exact predicts_expect nofun fun _ => predicts_pure _

theorem predicts_varDeclaration :
    Predicts n (residual (.keyword .kwVar) (Nonterminal.words .varDecl * after)) after
      (varDeclaration n) := by
  rw [words_phrase, rule]
  simp only [words_mul, words_optional, mul_assoc, residual_token_mul, add_mul, one_mul]
  refine predicts_expect nofun fun name c size => ?_
  have closed (initial : Option Expr) : Predicts n (words (.sign .semicolon) * after) after
      (do let _ ← expect (.symbol .semicolon) .variableEnd; return Stmt.var name initial) :=
    predicts_expect nofun fun _ => predicts_pure _
  refine foresees_accept (Nat.le_succ_of_le size) nofun (fun _ => ?_) fun other => ?_
  · rw [residual_add, residual_token_mul_of_ne (by decide), zero_add, residual_token_mul]
    exact (predicts_expression _ (avoids_token_mul rfl after)).bind fun e => closed (some e)
  · exact Foresees.add (closed none c size) (residual_token_mul_of_ne other _)

end Simple

/-- Where an `else` may come next, it may as well begin the second branch of an `if` before it. -/
def TakesElse (after : Language Kind) : Prop :=
  residual (.keyword .kwElse) after ≤ Nonterminal.words .statement * after

theorem takesElse_of_residual (none : residual (.keyword .kwElse) after = 0) : TakesElse after := by
  rw [TakesElse, none]
  exact bot_le

/-- A parser of statements, wherever one can end. -/
def PredictsStmt (n : Nat) (phrase : Nonterminal) (p : Parse Stmt) : Prop :=
  ∀ after, [Open after] → TakesElse after → Predicts n (phrase.words * after) after p

variable {statement declaration : Parse Stmt}

section Nested
variable (inner : PredictsStmt n .statement statement) [Open after] (takes : TakesElse after)
include inner takes

theorem predicts_ifStatement :
    Predicts n (residual (.keyword .kwIf) (Nonterminal.words .ifStmt * after)) after
      (ifStatement n statement) := by
  rw [words_phrase, rule]
  simp only [words_mul, words_optional, mul_assoc, residual_token_mul, add_mul, one_mul]
  refine predicts_expect nofun fun _ => ?_
  refine (predicts_expression _ (avoids_token_mul rfl _)).bind fun condition => ?_
  refine predicts_expect nofun fun _ => ?_
  refine (inner _ ?_).bind fun yes c size => ?_
  -- an `else` behind the first branch is this statement's own or that of one around it
  · rw [TakesElse, residual_add, residual_token_mul, mul_add]
    exact (sup_le takes le_rfl).trans le_sup_left
  -- it is taken here, and leaves nothing out that could follow it there
  · refine foresees_accept (Nat.le_succ_of_le size) nofun (fun _ => ?_) fun other => ?_
    · have branch : residual (.keyword .kwElse) (after + words (.word .kwElse) *
          (Nonterminal.words .statement * after)) = Nonterminal.words .statement * after := by
        rw [residual_add, residual_token_mul]
        exact sup_eq_right.mpr takes
      rw [branch]
      exact (inner after takes).bind fun no => predicts_pure _
    · exact (foresees_pure _).add (residual_token_mul_of_ne other _)

theorem predicts_whileStatement :
    Predicts n (residual (.keyword .kwWhile) (Nonterminal.words .whileStmt * after)) after
      (whileStatement n statement) := by
  rw [words_phrase, rule]
  simp only [words_mul, mul_assoc, residual_token_mul]
  refine predicts_expect nofun fun _ => ?_
  refine (predicts_expression _ (avoids_token_mul rfl _)).bind fun condition => ?_
  refine predicts_expect nofun fun _ => ?_
  exact (inner after takes).bind fun body => predicts_pure _

end Nested

theorem predicts_forFirst [Open after] :
    Predicts n (Nonterminal.words .varDecl * after + Nonterminal.words .exprStmt * after +
      words (.sign .semicolon) * after) after (forFirst n) := by
  intro c size
  refine foresees_accept (Nat.le_succ_of_le size) nofun (fun _ => ?_) fun noSemicolon => ?_
  · rw [residual_add, residual_add, residual_words_mul rfl, residual_words_mul rfl, zero_add,
      zero_add, residual_token_mul]
    exact predicts_pure _
  · refine foresees_accept (Nat.le_succ_of_le size) nofun (fun _ => ?_) fun noVar => ?_
    · rw [residual_add, residual_add, residual_words_mul (n := .exprStmt) rfl, add_zero,
        residual_token_mul_of_ne (by decide), add_zero]
      exact predicts_varDeclaration.bind fun s => predicts_pure _
    · refine Foresees.add ?_ (residual_token_mul_of_ne noSemicolon _)
      rw [add_comm]
      refine Foresees.add ?_ (residual_words_mul (n := .varDecl) (decide_eq_false noVar) _)
      exact predicts_expressionStatement.bind (fun s => predicts_pure _) c size

theorem predicts_forStatement (inner : PredictsStmt n .statement statement) [Open after]
    (takes : TakesElse after) :
    Predicts n (residual (.keyword .kwFor) (Nonterminal.words .forStmt * after)) after
      (forStatement n statement) := by
  rw [words_phrase, rule]
  simp only [words_mul, words_add, words_optional, mul_assoc, residual_token_mul, add_mul, one_mul]
  refine predicts_expect nofun fun _ => predicts_forFirst.bind fun first => ?_
  refine (predicts_optionalBefore (by decide) rfl rfl).bind fun condition => ?_
  refine predicts_expect nofun fun _ => ?_
  refine (predicts_optionalBefore (by decide) rfl rfl).bind fun step => ?_
  refine predicts_expect nofun fun _ => (inner after takes).bind fun body => ?_
  cases condition with
  | some e => exact predicts_pure _
  | none => exact predicts_freshId fun id => predicts_pure _

/-! Blocks, functions and classes. -/

/-- Items up to a closing brace. -/
theorem predicts_untilBrace {item : Language Kind} {p : Parse α}
    (items : Predicts n (item * (item∗ * (words (.sign .rightBrace) * after)))
      (item∗ * (words (.sign .rightBrace) * after)) p)
    (reads : Reads p fun ts _ _ => 0 < ts.length)
    (closes : ∀ b, residual (.symbol .rightBrace) (item * b) = 0)
    (ends : ∀ b, residual .endOfInput (item * b) = 0) {bound : Nat} (within : bound ≤ n) :
    Predicts bound (item∗ * (words (.sign .rightBrace) * after))
      (words (.sign .rightBrace) * after) (untilBrace p bound) := by
  induction bound with
  | zero =>
    intro c size
    have ended := c.next_of_length_le_zero size
    rw [kstar_mul]
    refine (foresees_pure []).add ?_
    rw [ended]
    exact ends _
  | succ bound ih =>
    intro c size
    have stops (k : Kind) (next : c.next = k) (none : ∀ b, residual k (item * b) = 0) :
        Foresees (item∗ * (words (.sign .rightBrace) * after))
          (words (.sign .rightBrace) * after) c ((pure [] : Parse (List α)) c) := by
      rw [kstar_mul]
      refine (foresees_pure []).add ?_
      rw [next]
      exact none _
    refine foresees_peek fun kind? found => ?_
    split
    · exact stops .endOfInput (by rw [Cursor.next, found]; rfl) ends
    · exact stops (.symbol .rightBrace) (by rw [Cursor.next, found]; rfl) closes
    · next kind other =>
      have open_ : c.next ≠ .symbol .rightBrace := by
        rw [Cursor.next, found]
        exact other
      have round := (items.weaken within).bind_succ reads fun first =>
        (ih (Nat.le_of_succ_le within)).bind fun rest => predicts_pure (first :: rest)
      rw [kstar_mul, add_comm]
      exact Foresees.add (round c size) (residual_token_mul_of_ne open_ after)

theorem words_block_mul (b : Language Kind) : Nonterminal.words .block * b =
    words (.sign .leftBrace) *
      ((Nonterminal.words .declaration)∗ * (words (.sign .rightBrace) * b)) := by
  rw [words_phrase, rule]
  simp only [words_mul, words_many, mul_assoc]

theorem predicts_superclass [Open after] (other : residual (.symbol .less) after = 0) :
    Predicts n (after + words (.sign .less) * (words .name * after)) after superclass := by
  intro c size
  refine foresees_accept (Nat.le_succ_of_le size) nofun (fun _ => ?_) fun none => ?_
  · rw [residual_add, other, zero_add, residual_token_mul]
    exact predicts_expect nofun fun name => predicts_freshId fun id => predicts_pure _
  · exact (foresees_pure _).add (residual_token_mul_of_ne none _)

section Bodies
variable (inner : PredictsStmt n .declaration declaration) (reads : ReadsDecl declaration)
  [Open after]
include inner reads

theorem predicts_block :
    Predicts n ((Nonterminal.words .declaration)∗ * (words (.sign .rightBrace) * after)) after
      (block n declaration) := by
  have noElse : TakesElse
      ((Nonterminal.words .declaration)∗ * (words (.sign .rightBrace) * after)) := by
    refine takesElse_of_residual ?_
    rw [kstar_mul, residual_add, residual_token_mul_of_ne (by decide), residual_words_mul rfl,
      add_zero]
  have nonempty := reads.imp fun _ _ _ derives => derives.length_pos
  have body := predicts_untilBrace (inner _ noElse) nonempty (fun b => residual_words_mul rfl b)
    (fun b => residual_words_mul rfl b) (Nat.le_refl n)
  exact body.bind fun body => predicts_expect nofun fun _ => predicts_pure _

theorem predicts_function (role : FunctionRole) :
    Predicts n (Nonterminal.words .function * after) after (function n declaration role) := by
  have parameters : Nonterminal.words .parameters =
      words .name * (words (.sign .comma) * words .name)∗ := by
    rw [words_phrase, rule]
    simp only [words_mul, words_many]
  rw [words_phrase, rule]
  simp only [words_mul, words_optional, parameters, mul_assoc, add_mul, one_mul]
  refine predicts_expect nofun fun name => predicts_expect nofun fun _ => ?_
  have names (after : Language Kind) [Open after] (_ : Avoids after goesOn) :
      Predicts n (words .name * after) after (expect .identifier .parameterName) := by
    rw [← bind_pure (expect .identifier .parameterName)]
    exact predicts_expect nofun fun _ => predicts_pure _
  have list : Predicts n _ (Nonterminal.words .block * after)
      (parenthesized (expect .identifier .parameterName) .tooManyParameters .parametersClose) :=
    predicts_parenthesized names rfl fun b => residual_token_mul_of_ne (by decide) b
  refine list.bind fun params => ?_
  rw [words_block_mul]
  refine predicts_expect nofun fun _ => ?_
  exact (predicts_block inner reads).bind fun body => predicts_pure _

theorem predicts_classDeclaration :
    Predicts n (residual (.keyword .kwClass) (Nonterminal.words .classDecl * after)) after
      (classDeclaration n declaration) := by
  rw [words_phrase, rule]
  simp only [words_mul, words_optional, words_many, mul_assoc, residual_token_mul, add_mul, one_mul]
  refine predicts_expect nofun fun name => ?_
  refine (predicts_superclass (residual_token_mul_of_ne (by decide) _)).bind fun parent => ?_
  refine predicts_expect nofun fun _ => ?_
  have nonempty := (reads_function reads n .method).imp fun _ _ _ derives => derives.length_pos
  have methods : Predicts n _ (words (.sign .rightBrace) * after)
      (untilBrace (function n declaration .method) n) :=
    predicts_untilBrace (predicts_function inner reads .method) nonempty
      (fun b => residual_words_mul rfl b) (fun b => residual_words_mul rfl b) (Nat.le_refl n)
  exact methods.bind fun methods => predicts_expect nofun fun _ => predicts_pure _

end Bodies

/-! Statements and declarations by the token that they begin with. -/

namespace StatementStart

def phrase : StatementStart → Nonterminal
  | forLoop => .forStmt
  | ifElse => .ifStmt
  | whileLoop => .whileStmt
  | returns => .returnStmt
  | block => .block
  | print => .printStmt

/-- The first token of a statement tells which it is. -/
theorem residual_statement {start : StatementStart} {k : Kind} (found : ofKind? k = some start)
    (b : Language Kind) :
    residual k (Nonterminal.words .statement * b) = residual k (start.phrase.words * b) := by
  rw [words_phrase, rule]
  simp only [words_add, add_mul, residual_add]
  unfold ofKind? at found
  split at found <;> cases found <;>
    simp (disch := decide) only [phrase, residual_words_mul, zero_add, add_zero]

/-- Without one of these tokens it is an expression. -/
theorem residual_statement_of_none {k : Kind} (none : ofKind? k = none) (b : Language Kind) :
    residual k (Nonterminal.words .statement * b) =
      residual k (Nonterminal.words .exprStmt * b) := by
  have other (n : Nonterminal) (start : StatementStart) (isPhrase : start.phrase = n) :
      residual k (n.words * b) = 0 := by
    subst isPhrase
    refine residual_words_mul ?_ b
    cases start <;> refine decide_eq_false ?_ <;> rintro rfl <;> cases none
  rw [words_phrase, rule]
  simp only [words_add, add_mul, residual_add, other .forStmt .forLoop rfl,
    other .ifStmt .ifElse rfl, other .printStmt .print rfl, other .returnStmt .returns rfl,
    other .whileStmt .whileLoop rfl, other .block .block rfl, add_zero]

end StatementStart

namespace DeclarationStart

def phrase : DeclarationStart → Nonterminal
  | classDecl => .classDecl
  | function => .funDecl
  | var => .varDecl

theorem residual_declaration {start : DeclarationStart} {k : Kind} (found : ofKind? k = some start)
    (b : Language Kind) :
    residual k (Nonterminal.words .declaration * b) = residual k (start.phrase.words * b) := by
  rw [words_phrase, rule]
  simp only [words_add, add_mul, residual_add]
  unfold ofKind? at found
  split at found <;> cases found <;>
    simp (disch := decide) only [phrase, residual_words_mul, zero_add, add_zero]

theorem residual_declaration_of_none {k : Kind} (none : ofKind? k = none) (b : Language Kind) :
    residual k (Nonterminal.words .declaration * b) =
      residual k (Nonterminal.words .statement * b) := by
  have other (n : Nonterminal) (start : DeclarationStart) (isPhrase : start.phrase = n) :
      residual k (n.words * b) = 0 := by
    subst isPhrase
    refine residual_words_mul ?_ b
    cases start <;> refine decide_eq_false ?_ <;> rintro rfl <;> cases none
  rw [words_phrase, rule]
  simp only [words_add, add_mul, residual_add, other .classDecl .classDecl rfl,
    other .funDecl .function rfl, other .varDecl .var rfl, zero_add]

end DeclarationStart

section Sorts
variable (statements : PredictsStmt n .statement statement)
  (declarations : PredictsStmt n .declaration declaration) (reads : ReadsDecl declaration)
include statements declarations reads

theorem predicts_statementWith :
    PredictsStmt (n + 1) .statement (statementWith n statement declaration) := by
  intro after _ takes c size
  refine foresees_takeIf size rfl (fun start l found => ?_) fun none => ?_
  · rw [StatementStart.residual_statement found]
    -- the keyword behind which the statement's own parser begins
    unfold StatementStart.ofKind? at found
    split at found <;> cases found
    · next next => exact next ▸ predicts_forStatement statements takes
    · next next => exact next ▸ predicts_ifStatement statements takes
    · next next => exact next ▸ predicts_whileStatement statements takes
    · next next => exact next ▸ predicts_returnStatement l
    · next next =>
      rw [next, StatementStart.phrase, words_block_mul, residual_token_mul]
      exact (predicts_block declarations reads).bind fun body => predicts_pure _
    · next next => exact next ▸ predicts_printStatement
  · refine (predicts_expressionStatement c size).widen ?_
      (StatementStart.residual_statement_of_none none after).le
    rintro _ ⟨u, here, v, there, rfl⟩
    exact ⟨u, .phrase (.left (.left (.left (.left (.left (.left here)))))), v, there, rfl⟩

theorem predicts_declarationWith :
    PredictsStmt (n + 1) .declaration (declarationWith n statement declaration) := by
  intro after _ takes c size
  refine foresees_takeIf size rfl (fun start l found => ?_) fun none => ?_
  · rw [DeclarationStart.residual_declaration found]
    unfold DeclarationStart.ofKind? at found
    split at found <;> cases found
    · next next => exact next ▸ predicts_classDeclaration declarations reads
    · next next =>
      have behind : residual (.keyword .kwFun) (Nonterminal.words .funDecl * after) =
          Nonterminal.words .function * after := by
        rw [words_phrase, rule, words_mul, mul_assoc, residual_token_mul]
      rw [next, DeclarationStart.phrase, behind]
      exact (predicts_function declarations reads .function).bind fun f => predicts_pure _
    · next next => exact next ▸ predicts_varDeclaration
  · refine (predicts_statementWith statements declarations reads after takes c size).widen ?_
      (DeclarationStart.residual_declaration_of_none none after).le
    rintro _ ⟨u, here, v, there, rfl⟩
    exact ⟨u, .phrase (.right here), v, there, rfl⟩

end Sorts

/-- Statements and declarations read on as the grammar does, and complain about the first token with
which it does not. -/
theorem predicts_statement_declaration :
    PredictsStmt n .statement (Parse.statement n) ∧
      PredictsStmt n .declaration (Parse.declaration n) := by
  induction n with
  | zero =>
    have missing (phrase : Nonterminal) (other : first phrase .endOfInput = false) :
        PredictsStmt 0 phrase (fail .expression) := by
      intro after _ _ c size
      have ended := c.next_of_length_le_zero size
      refine foresees_fail (residual_words_mul ?_ after) _
      rw [ended, other]
    exact ⟨missing .statement rfl, missing .declaration rfl⟩
  | succ n ih =>
    obtain ⟨statements, declarations⟩ := ih
    have reads := (reads_statement_declaration n).2
    constructor
    · exact predicts_statementWith statements declarations reads
    · exact predicts_declarationWith statements declarations reads

end Parse
end ScopeScript
