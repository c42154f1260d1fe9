import ScopeScript.Proofs.Parse.Numbering
import ScopeScript.Proofs.Tree.Nodes

/-! The order of the numbers in a parsed tree. In every expression they go up: a node is built
behind its operands, and these from left to right. From one expression of a statement to the next
they need not: the condition that a `for` lacks is numbered after the body. -/
namespace ScopeScript

/-- Each number is larger than all before it. -/
def Expr.Rises (e : Expr) : Prop := e.ids.Pairwise (· < ·)

/-- All expressions of a statement are numbered upwards. -/
def Stmt.Rises (s : Stmt) : Prop := ∀ e ∈ s.exprs, e.Rises

def FunctionDecl.Rises (f : FunctionDecl) : Prop := ∀ e ∈ f.exprs, e.Rises

theorem Stmt.rises_block {body : List Stmt} (each : ∀ s ∈ body, s.Rises) :
    (Stmt.block body).Rises := by
  intro e member
  rw [Stmt.exprs, Stmt.exprsEach_eq_flatMap] at member
  obtain ⟨s, inside, member⟩ := List.mem_flatMap.mp member
  exact each s inside e member

theorem Stmt.rises_whileLoop {condition : Expr} {body : Stmt} (first : condition.Rises)
    (rest : body.Rises) : (Stmt.whileLoop condition body).Rises :=
  List.forall_mem_cons.mpr ⟨first, rest⟩

theorem Stmt.rises_forLoop {first : Option Stmt} {condition : Expr} {step : Option Expr}
    {body : Stmt} (start : ∀ s ∈ first, s.Rises) (test : condition.Rises)
    (next : ∀ e ∈ step, e.Rises) (inner : body.Rises) :
    (Stmt.forLoop first condition step body).Rises := by
  have round : (body.forRound step).Rises := by
    cases step with
    | none => exact inner
    | some e =>
      have last : (Stmt.expression e).Rises := List.forall_mem_singleton.mpr (next e rfl)
      exact rises_block (List.forall_mem_cons.mpr ⟨inner, List.forall_mem_singleton.mpr last⟩)
  cases first with
  | none => exact rises_whileLoop test round
  | some s =>
    have loop := rises_whileLoop test round
    exact rises_block
      (List.forall_mem_cons.mpr ⟨start s rfl, List.forall_mem_singleton.mpr loop⟩)

namespace Parse
variable {α β : Type} {p : Parse α} {q : α → Parse β} {good : α → Prop} {good' : β → Prop}

/-- Whatever a parser builds is good. -/
def Yields (p : Parse α) (good : α → Prop) : Prop := ∀ c a c', p c = .ok a c' → good a

theorem Yields.bind (first : Yields p good) (next : ∀ a, good a → Yields (q a) good') :
    Yields (p >>= q) good' := by
  intro c b c' ok
  obtain ⟨a, d, left, right⟩ := bind_eq_ok.mp ok
  exact next a (first c a d left) d b c' right

/-- Nothing is asked of the first part. -/
theorem Yields.skip (next : ∀ a, Yields (q a) good') : Yields (p >>= q) good' := by
  intro c b c' ok
  obtain ⟨a, d, _, right⟩ := bind_eq_ok.mp ok
  exact next a d b c' right

theorem yields_pure {a : α} (here : good a) : Yields (pure a) good := by
  rintro c _ _ ⟨⟩
  exact here

theorem yields_fail (cause : ParseCause) : Yields (fail cause) good := nofun

theorem yields_untilBrace {item : Parse α} (items : Yields item good) (bound : Nat) :
    Yields (untilBrace item bound) fun as => ∀ a ∈ as, good a := by
  induction bound with
  | zero => exact yields_pure nofun
  | succ bound ih =>
    refine .skip fun next => ?_
    split
    · exact yields_pure nofun
    · exact yields_pure nofun
    · refine items.bind fun first here => ih.bind fun rest others => ?_
      exact yields_pure (List.forall_mem_cons.mpr ⟨here, others⟩)

theorem expression_rises (bound : Nat) : Yields (expression bound) Expr.Rises := by
  intro c e c' ok
  exact ((draws_expression (R := Rising) bound).drawn c.nextId c e c' ok (Numbering.nil _)).sorted

theorem optionalBefore_rises (ending : Kind) (bound : Nat) :
    Yields (optionalBefore ending bound) fun value => ∀ e ∈ value, e.Rises := by
  refine .skip fun next => ?_
  split
  · exact yields_pure nofun
  · refine (expression_rises bound).bind fun e here => yields_pure ?_
    rintro _ ⟨⟩
    exact here

theorem expressionStatement_rises (bound : Nat) :
    Yields (expressionStatement bound) Stmt.Rises :=
  (expression_rises bound).bind fun _ here => .skip fun _ =>
    yields_pure (List.forall_mem_singleton.mpr here)

theorem printStatement_rises (bound : Nat) : Yields (printStatement bound) Stmt.Rises :=
  (expression_rises bound).bind fun _ here => .skip fun _ =>
    yields_pure (List.forall_mem_singleton.mpr here)

theorem returnStatement_rises (bound : Nat) (keyword : Lexeme) :
    Yields (returnStatement bound keyword) Stmt.Rises := by
  refine (optionalBefore_rises _ bound).bind fun value here => .skip fun _ => yields_pure ?_
  exact fun e member => here e (Option.mem_toList.mp member)

theorem varDeclaration_rises (bound : Nat) : Yields (varDeclaration bound) Stmt.Rises := by
  refine .skip fun name => .skip fun given => ?_
  have ending (initial : Option Expr) (here : ∀ e ∈ initial, e.Rises) :
      Yields (do let _ ← expect (.symbol .semicolon) .variableEnd; return Stmt.var name initial)
        Stmt.Rises :=
    .skip fun _ => yields_pure fun e member => here e (Option.mem_toList.mp member)
  cases given with
  | true =>
    refine (expression_rises bound).bind fun e here => ending (some e) ?_
    rintro _ ⟨⟩
    exact here
  | false => exact ending none nofun

variable {statement declaration : Parse Stmt}

theorem ifStatement_rises (inner : Yields statement Stmt.Rises) (bound : Nat) :
    Yields (ifStatement bound statement) Stmt.Rises := by
  refine .skip fun _ => (expression_rises bound).bind fun condition here => .skip fun _ => ?_
  refine inner.bind fun yes first => .skip fun more => ?_
  cases more with
  | true =>
    refine inner.bind fun no second => yields_pure ?_
    exact List.forall_mem_cons.mpr ⟨here, List.forall_mem_append.mpr ⟨first, second⟩⟩
  | false => exact yields_pure (List.forall_mem_cons.mpr ⟨here, first⟩)

theorem whileStatement_rises (inner : Yields statement Stmt.Rises) (bound : Nat) :
    Yields (whileStatement bound statement) Stmt.Rises := by
  refine .skip fun _ => (expression_rises bound).bind fun condition here => .skip fun _ => ?_
  exact inner.bind fun body rest => yields_pure (Stmt.rises_whileLoop here rest)

theorem forFirst_rises (bound : Nat) :
    Yields (forFirst bound) fun first => ∀ s ∈ first, s.Rises := by
  have given {p : Parse Stmt} (statements : Yields p Stmt.Rises) :
      Yields (do return some (← p)) fun first => ∀ s ∈ first, s.Rises := by
    refine statements.bind fun s here => yields_pure ?_
    rintro _ ⟨⟩
    exact here
  refine .skip fun empty => ?_
  cases empty with
  | true => exact yields_pure nofun
  | false =>
    refine .skip fun declared => ?_
    cases declared with
    | true => exact given (varDeclaration_rises bound)
    | false => exact given (expressionStatement_rises bound)

theorem forStatement_rises (inner : Yields statement Stmt.Rises) (bound : Nat) :
    Yields (forStatement bound statement) Stmt.Rises := by
  refine .skip fun _ => (forFirst_rises bound).bind fun first start => ?_
  refine (optionalBefore_rises _ bound).bind fun condition test => .skip fun _ => ?_
  refine (optionalBefore_rises _ bound).bind fun step next => .skip fun _ => ?_
  refine inner.bind fun body rest => ?_
  cases condition with
  | some e => exact yields_pure (Stmt.rises_forLoop start (test e rfl) next rest)
  | none =>
    refine .skip fun id => yields_pure ?_
    exact Stmt.rises_forLoop start (List.pairwise_singleton _ id) next rest

theorem block_rises (inner : Yields declaration Stmt.Rises) (bound : Nat) :
    Yields (block bound declaration) fun body => (Stmt.block body).Rises := by
  refine (yields_untilBrace inner bound).bind fun body each => .skip fun _ => ?_
  exact yields_pure (Stmt.rises_block each)

theorem function_rises (inner : Yields declaration Stmt.Rises) (bound : Nat)
    (role : FunctionRole) : Yields (function bound declaration role) FunctionDecl.Rises := by
  refine .skip fun _ => .skip fun _ => .skip fun _ => .skip fun _ => ?_
  exact (block_rises inner bound).bind fun body rest => yields_pure rest

theorem classDeclaration_rises (inner : Yields declaration Stmt.Rises) (bound : Nat) :
    Yields (classDeclaration bound declaration) Stmt.Rises := by
  refine .skip fun _ => .skip fun parent => .skip fun _ => ?_
  refine (yields_untilBrace (function_rises inner bound .method) bound).bind fun methods each => ?_
  refine .skip fun _ => yields_pure (List.forall_mem_append.mpr ⟨?_, ?_⟩)
  · intro e member
    obtain ⟨s, _, rfl⟩ := Option.map_eq_some_iff.mp (Option.mem_toList.mp member)
    exact List.pairwise_singleton _ s.id
  · intro e member
    rw [FunctionDecl.exprsEach_eq_flatMap] at member
    obtain ⟨f, inside, member⟩ := List.mem_flatMap.mp member
    exact each f inside e member

theorem statementWith_rises (statements : Yields statement Stmt.Rises)
    (declarations : Yields declaration Stmt.Rises) (bound : Nat) :
    Yields (statementWith bound statement declaration) Stmt.Rises := by
  refine .skip fun start => ?_
  match start with
  | some (.forLoop, _) => exact forStatement_rises statements bound
  | some (.ifElse, _) => exact ifStatement_rises statements bound
  | some (.whileLoop, _) => exact whileStatement_rises statements bound
  | some (.returns, keyword) => exact returnStatement_rises bound keyword
  | some (.block, _) =>
    exact (block_rises declarations bound).bind fun body rest => yields_pure rest
  | some (.print, _) => exact printStatement_rises bound
  | none => exact expressionStatement_rises (bound + 1)

theorem declarationWith_rises (statements : Yields statement Stmt.Rises)
    (declarations : Yields declaration Stmt.Rises) (bound : Nat) :
    Yields (declarationWith bound statement declaration) Stmt.Rises := by
  refine .skip fun start => ?_
  match start with
  | some (.classDecl, _) => exact classDeclaration_rises declarations bound
  | some (.function, _) =>
    exact (function_rises declarations bound .function).bind fun f rest => yields_pure rest
  | some (.var, _) => exact varDeclaration_rises bound
  | none => exact statementWith_rises statements declarations bound

theorem statement_declaration_rise (bound : Nat) :
    Yields (Parse.statement bound) Stmt.Rises ∧ Yields (Parse.declaration bound) Stmt.Rises := by
  induction bound with
  | zero => exact ⟨yields_fail _, yields_fail _⟩
  | succ bound ih =>
    exact ⟨statementWith_rises ih.1 ih.2 bound, declarationWith_rises ih.1 ih.2 bound⟩

end Parse

/-- In a parsed program every node has a larger number than its operands, and these are numbered
from left to right. -/
theorem parseFrom_ordered (bound : Nat) (c : Cursor) :
    ∀ node ∈ programNodes (parseFrom bound c).statements, node.Ordered := by
  suffices ∀ s ∈ (parseFrom bound c).statements, s.Rises by
    intro node member
    rw [programNodes, Stmt.exprsEach_eq_flatMap] at member
    obtain ⟨e, inside, member⟩ := List.mem_flatMap.mp member
    obtain ⟨s, among, inside⟩ := List.mem_flatMap.mp inside
    exact Expr.ordered_of_rising (this s among e inside) node member
  induction bound generalizing c with
  | zero => exact List.forall_mem_nil _
  | succ bound ih =>
    unfold parseFrom
    cases c.rest with
    | nil => exact List.forall_mem_nil _
    | cons t rest =>
      dsimp only
      cases found : Parse.declaration (bound + 1) c with
      | ok s c' =>
        have first := (Parse.statement_declaration_rise (bound + 1)).2 c s c' found
        exact List.forall_mem_cons.mpr ⟨first, ih c'⟩
      | error e c' => exact ih _

end ScopeScript
