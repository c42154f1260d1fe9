import ScopeScript.Proofs.Parse.View

/-! The procedures of the parser, step by step over a buffer and over a cursor. -/
namespace ScopeScript

namespace Parse
variable {α β : Type} {v : View} {n k : Nat} {f : α → β} {c : Cursor}

/-! Expressions. Nested expressions stand behind at least one token. -/

variable {expression : Parse Expr} {expression' : Buffered Expr} {bound fuel : Nat}

theorem tracks_primary (inner : Tracks v n 1 (Expr.relabel v.relabel) expression expression') :
    Tracks v (n + 1) 1 (Expr.relabel v.relabel) (primary expression)
      (Buffered.primary expression') := by
  refine tracks_takeIf (fun start l => ?_) (tracks_fail _)
  cases start with
  | literal value => exact tracks_freshId.bind fun _ => tracks_pure rfl
  | this => exact tracks_freshId.bind fun _ => tracks_pure rfl
  | name => exact tracks_freshId.bind fun _ => tracks_pure rfl
  | group =>
    refine inner.bind fun e => tracks_expect fun _ => ?_
    exact tracks_freshId.bind fun _ => tracks_pure rfl

/-- With no token left, the buffer only has to find that out. -/
theorem tracks_at_end {a : α} {q : Buffered β}
    (stops : ∀ {c b}, v.Shows c b → c.rest = [] → q b = .ok (f a) b) :
    Tracks v 0 0 f (pure a) q := by
  intro c size
  have empty : c.rest = [] := List.eq_nil_of_length_eq_zero (Nat.le_zero.mp size)
  exact ⟨Nat.le_refl _, fun b shows_ _ => ⟨b, stops shows_ empty, shows_⟩⟩

theorem head_of_nil {kind : Kind} (empty : c.rest = []) :
    c.rest.head?.map (·.kind) ≠ some kind := by
  rw [empty]
  nofun

theorem takeIf_nil {b : TokenBuffer} (shows_ : v.Shows c b) (empty : c.rest = [])
    (select : Kind → Option α) : Buffered.takeIf select b = .ok none b := by
  rw [takeIf_of_shows shows_, empty]

theorem tracks_calls (inner : Tracks v n 1 (Expr.relabel v.relabel) expression expression')
    (within : bound ≤ n) (enough : bound < fuel) (subject : Expr) :
    Tracks v bound 0 (Expr.relabel v.relabel) (calls expression bound subject)
      (Buffered.calls expression' fuel (subject.relabel v.relabel)) := by
  induction bound generalizing fuel subject with
  | zero =>
    obtain ⟨fuel, rfl⟩ : ∃ m, fuel = m + 1 := ⟨fuel - 1, by omega⟩
    refine tracks_at_end fun shows_ empty => ?_
    rw [Buffered.calls, Buffered.bind_ok (accept_no shows_ (head_of_nil empty)),
      if_neg (by decide), Buffered.bind_ok (accept_no shows_ (head_of_nil empty)),
      if_neg (by decide)]
    rfl
  | succ bound ih =>
    obtain ⟨fuel, rfl⟩ : ∃ m, fuel = m + 1 := ⟨fuel - 1, by omega⟩
    refine tracks_accept ?_ (tracks_accept ?_ (tracks_pure rfl))
    · have arguments := tracks_parenthesized (inner.weaken (by omega : bound ≤ n) (Nat.le_refl 1))
        .tooManyArguments .argumentsClose
      refine arguments.bind fun r => tracks_freshId.bind fun id => ?_
      have again := ih (by omega) (by omega : bound < fuel) (.call id subject r.1 r.2)
      rw [Expr.relabel, Expr.relabelEach_eq_map] at again
      exact again.weaken (by omega) (Nat.zero_le _)
    · refine tracks_expect fun property => tracks_freshId.bind fun id => ?_
      have again := ih (by omega) (by omega : bound < fuel) (.get id subject property)
      exact again.weaken (by omega) (Nat.zero_le _)

theorem tracks_signs (enough : bound < fuel) :
    Tracks v bound 0 (relabelSigns v.relabel) (signs bound) (Buffered.signs fuel) := by
  induction bound generalizing fuel with
  | zero =>
    obtain ⟨fuel, rfl⟩ : ∃ m, fuel = m + 1 := ⟨fuel - 1, by omega⟩
    refine tracks_at_end fun shows_ empty => ?_
    rw [Buffered.signs, Buffered.bind_ok (takeIf_nil shows_ empty _)]
    rfl
  | succ bound ih =>
    obtain ⟨fuel, rfl⟩ : ∃ m, fuel = m + 1 := ⟨fuel - 1, by omega⟩
    refine tracks_takeIf (fun op l => ?_) (tracks_pure rfl)
    exact (ih (by omega)).bind fun rest => tracks_pure rfl

theorem tracks_signed (before : List (UnaryOp × Lexeme)) (operand : Expr) :
    Tracks v n 0 (Expr.relabel v.relabel) (signed before operand)
      (Buffered.signed (relabelSigns v.relabel before) (operand.relabel v.relabel)) := by
  induction before with
  | nil => exact tracks_pure rfl
  | cons sign rest ih =>
    exact ih.bind fun inner => tracks_freshId.bind fun _ => tracks_pure rfl

theorem tracks_unary (inner : Tracks v n 1 (Expr.relabel v.relabel) expression expression')
    (enough : n < fuel) :
    Tracks v (n + 1) 1 (Expr.relabel v.relabel) (unary n expression)
      (Buffered.unary fuel expression') := by
  refine (tracks_signs (by omega)).bind fun before => ?_
  refine (tracks_primary inner).bind fun subject => ?_
  refine (tracks_calls inner (Nat.le_refl n) enough subject).bind fun operand => ?_
  exact tracks_signed before operand

theorem InfixOp.node_relabel (r : Relabel) (op : InfixOp) (id : ExprId) (sign : Lexeme)
    (left right : Expr) : (op.node id sign left right).relabel r =
      op.node (r.id id) (sign.relabel r) (left.relabel r) (right.relabel r) := by
  cases op <;> rfl

theorem tracks_chainFrom {operand : Parse Expr} {operand' : Buffered Expr} {level : Level}
    (operands : Tracks v n 1 (Expr.relabel v.relabel) operand operand')
    (within : bound ≤ n) (enough : bound < fuel) (left : Expr) :
    Tracks v bound 0 (Expr.relabel v.relabel) (chainFrom level operand bound left)
      (Buffered.chainFrom level operand' fuel (left.relabel v.relabel)) := by
  induction bound generalizing fuel left with
  | zero =>
    obtain ⟨fuel, rfl⟩ : ∃ m, fuel = m + 1 := ⟨fuel - 1, by omega⟩
    refine tracks_at_end fun shows_ empty => ?_
    rw [Buffered.chainFrom, Buffered.bind_ok (takeIf_nil shows_ empty _)]
    rfl
  | succ bound ih =>
    obtain ⟨fuel, rfl⟩ : ∃ m, fuel = m + 1 := ⟨fuel - 1, by omega⟩
    refine tracks_takeIf (fun op sign => ?_) (tracks_pure rfl)
    have right := operands.weaken (by omega : bound ≤ n) (Nat.le_refl 1)
    refine right.bind fun right => tracks_freshId.bind fun id => ?_
    have again := ih (by omega) (by omega : bound < fuel) (op.node id sign left right)
    rw [InfixOp.node_relabel] at again
    exact again.weaken (by omega) (Nat.zero_le _)

theorem tracks_operation (inner : Tracks v n 1 (Expr.relabel v.relabel) expression expression')
    (enough : n < fuel) :
    Tracks v (n + 1) 1 (Expr.relabel v.relabel) (operation n expression)
      (Buffered.operation fuel expression') := by
  unfold operation Buffered.operation
  induction Level.all with
  | nil => exact tracks_unary inner enough
  | cons level levels ih =>
    refine ih.bind fun left => ?_
    exact tracks_chainFrom (ih.weaken (Nat.le_succ n) (Nat.le_refl 1)) (Nat.le_refl n) enough left

/-- What is read behind the sign of an assignment, over a buffer. -/
def assigned (target : Expr) (expression' : Buffered Expr) (sign : Lexeme) : Buffered Expr := do
  let value ← expression'
  match target with
  | .var _ name => return .assign (← Buffered.freshId) name value
  | .get _ object property => return .set (← Buffered.freshId) object property value
  | _ => Buffered.failAt sign .assignmentTarget

theorem tracks_assignment (inner : Tracks v n 1 (Expr.relabel v.relabel) expression expression')
    (enough : n < fuel) :
    Tracks v (n + 1) 1 (Expr.relabel v.relabel) (assignment n expression)
      (Buffered.assignment fuel expression') := by
  refine (tracks_operation inner enough).bind fun target => ?_
  -- the buffer looks back for the sign that it has just read
  refine tracks_take? (assigned (target.relabel v.relabel) expression')
    (return target.relabel v.relabel) (fun sign => ?_) (tracks_pure rfl)
    (fun shows_ here isKind => ?_) fun shows_ other => ?_
  · refine (inner.weaken (by omega) (Nat.zero_le 1)).bind fun value => ?_
    cases target with
    | var id name => exact tracks_freshId.bind fun _ => tracks_pure rfl
    | get id object property => exact tracks_freshId.bind fun _ => tracks_pure rfl
    | literal _ _ | group _ _ | this _ _ | assign _ _ _ | unary _ _ _ _ | binary _ _ _ _ _
    | logical _ _ _ _ _ | call _ _ _ _ | set _ _ _ _ => exact tracks_failAt sign _
  · rw [← isKind, Buffered.bind_ok (accept_yes shows_ here), if_pos rfl,
      Buffered.bind_ok (previous_of_shows shows_ here)]
    rfl
  · rw [Buffered.bind_ok (accept_no shows_ other), if_neg (by decide)]

/-- With no token left, an expression is missing. -/
theorem operation_nil {b : TokenBuffer} (shows_ : v.Shows c b) (empty : c.rest = []) (fuel : Nat)
    (expression' : Buffered Expr) :
    Buffered.operation fuel expression' b =
      .error (.error (ParseError.relabel v.relabel ⟨.expression, c.place⟩)) b := by
  unfold Buffered.operation
  induction Level.all with
  | nil =>
    have none : Buffered.signs (fuel + 1) b = .ok [] b := by
      rw [Buffered.signs, Buffered.bind_ok (takeIf_nil shows_ empty _)]
      rfl
    have missing : Buffered.primary expression' b =
        .error (.error (ParseError.relabel v.relabel ⟨.expression, c.place⟩)) b := by
      rw [Buffered.primary, Buffered.bind_ok (takeIf_nil shows_ empty _)]
      exact fail_of_shows shows_ .expression
    rw [List.foldr_nil, Buffered.unary, Buffered.bind_ok none]
    exact Buffered.bind_error missing
  | cons level levels ih => exact Buffered.bind_error ih

theorem expression_nil {b : TokenBuffer} (shows_ : v.Shows c b) (empty : c.rest = []) (fuel : Nat) :
    Buffered.expression (fuel + 1) b =
      .error (.error (ParseError.relabel v.relabel ⟨.expression, c.place⟩)) b :=
  Buffered.bind_error (operation_nil shows_ empty _ _)

/-- With no token left, both find an expression missing. -/
theorem tracks_missing {q : Buffered β} (missing : ∀ {c b}, v.Shows c b → c.rest = [] →
      q b = .error (.error (ParseError.relabel v.relabel ⟨.expression, c.place⟩)) b) :
    Tracks v 0 k f (fail .expression) q := by
  intro c size
  have empty : c.rest = [] := List.eq_nil_of_length_eq_zero (Nat.le_zero.mp size)
  exact ⟨Nat.le_refl _, fun b shows_ _ => ⟨b, missing shows_ empty, shows_⟩⟩

theorem tracks_expression (enough : n < fuel) :
    Tracks v n 1 (Expr.relabel v.relabel) (Parse.expression n) (Buffered.expression fuel) := by
  induction n generalizing fuel with
  | zero =>
    obtain ⟨fuel, rfl⟩ : ∃ m, fuel = m + 1 := ⟨fuel - 1, by omega⟩
    exact tracks_missing fun shows_ empty => expression_nil shows_ empty fuel
  | succ n ih =>
    obtain ⟨fuel, rfl⟩ : ∃ m, fuel = m + 1 := ⟨fuel - 1, by omega⟩
    exact tracks_assignment (ih (by omega)) (by omega)

theorem tracks_soleExpression (enough : n < fuel) :
    Tracks v n 1 (Expr.relabel v.relabel) (soleExpression n) (Buffered.soleExpression fuel) := by
  refine (tracks_expression enough).bind fun e => ?_
  exact tracks_isAtEnd (tracks_pure rfl) fun _ => tracks_fail _

/-! Statements. -/

theorem tracks_optionalBefore (ending : Kind) (enough : n < fuel) :
    Tracks v n 0 (Option.map (Expr.relabel v.relabel)) (optionalBefore ending n)
      (Buffered.optionalBefore ending fuel) := by
  refine tracks_check (tracks_pure rfl) ?_
  exact (tracks_expression enough).bind fun e => tracks_pure rfl

theorem tracks_expressionStatement (enough : n < fuel) :
    Tracks v n 2 (Stmt.relabel v.relabel) (expressionStatement n)
      (Buffered.expressionStatement fuel) := by
  refine (tracks_expression enough).bind fun e => ?_
  exact tracks_expect fun _ => tracks_pure rfl

theorem tracks_printStatement (enough : n < fuel) :
    Tracks v n 2 (Stmt.relabel v.relabel) (printStatement n) (Buffered.printStatement fuel) := by
  refine (tracks_expression enough).bind fun e => ?_
  exact tracks_expect fun _ => tracks_pure rfl

theorem tracks_returnStatement (enough : n < fuel) (keyword : Lexeme) :
    Tracks v n 1 (Stmt.relabel v.relabel) (returnStatement n keyword)
      (Buffered.returnStatement fuel (keyword.relabel v.relabel)) := by
  refine (tracks_optionalBefore _ enough).bind fun e => ?_
  exact tracks_expect fun _ => tracks_pure rfl

theorem tracks_varDeclaration (enough : n < fuel) :
    Tracks v n 2 (Stmt.relabel v.relabel) (varDeclaration n) (Buffered.varDeclaration fuel) := by
  refine tracks_expect fun name => tracks_accept ?_ (tracks_expect fun _ => tracks_pure rfl)
  have initial : Tracks v (n - 1 - 1) 1 (Expr.relabel v.relabel) (Parse.expression n)
      (Buffered.expression fuel) := (tracks_expression enough).weaken (by omega) (Nat.le_refl 1)
  refine Tracks.weaken (k := 2) ?_ (Nat.le_refl _) (Nat.zero_le 2)
  exact initial.bind fun e => tracks_expect fun _ => tracks_pure rfl

variable {statement declaration : Parse Stmt} {statement' declaration' : Buffered Stmt}

theorem tracks_ifStatement (inner : Tracks v n 1 (Stmt.relabel v.relabel) statement statement')
    (enough : n < fuel) :
    Tracks v n 1 (Stmt.relabel v.relabel) (ifStatement n statement)
      (Buffered.ifStatement fuel statement') := by
  refine tracks_expect fun _ => ?_
  refine Tracks.weaken (k := 3) ?_ (Nat.le_refl _) (Nat.zero_le 3)
  have condition : Tracks v (n - 1) 1 (Expr.relabel v.relabel) (Parse.expression n)
      (Buffered.expression fuel) := (tracks_expression enough).weaken (by omega) (Nat.le_refl 1)
  refine condition.bind fun condition => tracks_expect fun _ => ?_
  refine (inner.weaken (by omega) (Nat.le_refl 1)).bind fun yes => ?_
  refine tracks_accept ?_ (tracks_pure rfl)
  exact (inner.weaken (by omega) (Nat.zero_le 1)).bind fun no => tracks_pure rfl

theorem tracks_whileStatement (inner : Tracks v n 1 (Stmt.relabel v.relabel) statement statement')
    (enough : n < fuel) :
    Tracks v n 1 (Stmt.relabel v.relabel) (whileStatement n statement)
      (Buffered.whileStatement fuel statement') := by
  refine tracks_expect fun _ => ?_
  refine Tracks.weaken (k := 3) ?_ (Nat.le_refl _) (Nat.zero_le 3)
  have condition : Tracks v (n - 1) 1 (Expr.relabel v.relabel) (Parse.expression n)
      (Buffered.expression fuel) := (tracks_expression enough).weaken (by omega) (Nat.le_refl 1)
  refine condition.bind fun condition => tracks_expect fun _ => ?_
  exact (inner.weaken (by omega) (Nat.le_refl 1)).bind fun body => tracks_pure rfl

theorem tracks_forFirst (enough : n < fuel) :
    Tracks v n 1 (Option.map (Stmt.relabel v.relabel)) (forFirst n) (Buffered.forFirst fuel) := by
  refine tracks_accept (tracks_pure rfl) (tracks_accept ?_ ?_)
  · have initial := (tracks_varDeclaration (v := v) enough).weaken (Nat.sub_le n 1) (Nat.zero_le 2)
    exact initial.bind fun s => tracks_pure rfl
  · exact (tracks_expressionStatement enough).bind fun s => tracks_pure rfl

theorem tracks_forStatement (inner : Tracks v n 1 (Stmt.relabel v.relabel) statement statement')
    (enough : n < fuel) :
    Tracks v n 1 (Stmt.relabel v.relabel) (forStatement n statement)
      (Buffered.forStatement fuel statement') := by
  refine tracks_expect fun _ => ?_
  refine Tracks.weaken (k := 4) ?_ (Nat.le_refl _) (Nat.zero_le 4)
  refine ((tracks_forFirst enough).weaken (by omega) (Nat.le_refl 1)).bind fun first => ?_
  refine ((tracks_optionalBefore _ enough).weaken (by omega) (Nat.le_refl 0)).bind fun condition => ?_
  refine tracks_expect fun _ => ?_
  refine ((tracks_optionalBefore _ enough).weaken (by omega) (Nat.le_refl 0)).bind fun step => ?_
  refine tracks_expect fun _ => ?_
  refine (inner.weaken (by omega) (Nat.le_refl 1)).bind fun body => ?_
  cases condition with
  | some e => exact tracks_pure (Stmt.forLoop_relabel _ first e step body)
  | none =>
    exact tracks_freshId.bind fun id => tracks_pure (Stmt.forLoop_relabel _ first _ step body)

theorem tracks_untilBrace {item : Parse α} {item' : Buffered β} (items : Tracks v n 1 f item item')
    (within : bound ≤ n) (enough : bound < fuel) :
    Tracks v bound 0 (List.map f) (untilBrace item bound) (Buffered.untilBrace item' fuel) := by
  induction bound generalizing fuel with
  | zero =>
    obtain ⟨fuel, rfl⟩ : ∃ m, fuel = m + 1 := ⟨fuel - 1, by omega⟩
    refine tracks_at_end fun shows_ empty => ?_
    rw [Buffered.untilBrace, Buffered.bind_ok (check_no shows_ (head_of_nil empty)),
      if_neg (by decide), Buffered.bind_ok (isAtEnd_nil shows_ empty), if_pos rfl]
    rfl
  | succ bound ih =>
    obtain ⟨fuel, rfl⟩ : ∃ m, fuel = m + 1 := ⟨fuel - 1, by omega⟩
    refine tracks_peek fun kind? => ?_
    split
    · refine ⟨pure [], tracks_pure rfl, fun shows_ head => ?_⟩
      have empty := List.head?_eq_none_iff.mp (Option.map_eq_none_iff.mp head)
      rw [Buffered.untilBrace, Buffered.bind_ok (check_no shows_ (head_of_nil empty)),
        if_neg (by decide), Buffered.bind_ok (isAtEnd_nil shows_ empty), if_pos rfl]
    · refine ⟨pure [], tracks_pure rfl, fun shows_ head => ?_⟩
      rw [Buffered.untilBrace, Buffered.bind_ok (check_of_shows shows_ _), decide_eq_true head,
        if_pos rfl]
    · next kind other =>
      refine ⟨do let first ← item'; return first :: (← Buffered.untilBrace item' fuel), ?_, ?_⟩
      · refine (items.weaken within (Nat.le_refl 1)).bind fun first => ?_
        exact (ih (by omega) (by omega)).bind fun rest => tracks_pure rfl
      · intro c b shows_ head
        have open_ : c.rest.head?.map (·.kind) ≠ some (.symbol .rightBrace) := by
          rw [head]
          exact fun same => other (Option.some.inj same)
        obtain ⟨t, first, -⟩ := Option.map_eq_some_iff.mp head
        obtain ⟨rest, here⟩ := List.head?_eq_some_iff.mp first
        rw [Buffered.untilBrace, Buffered.bind_ok (check_no shows_ open_), if_neg (by decide),
          Buffered.bind_ok (isAtEnd_cons shows_ here), if_neg (by decide)]

theorem tracks_block (inner : Tracks v n 1 (Stmt.relabel v.relabel) declaration declaration')
    (enough : n < fuel) :
    Tracks v n 1 (Stmt.relabelEach v.relabel) (block n declaration)
      (Buffered.block fuel declaration') := by
  refine (tracks_untilBrace inner (Nat.le_refl n) enough).bind fun body => ?_
  exact tracks_expect fun _ => tracks_pure (Stmt.relabelEach_eq_map _ body)

theorem tracks_function (inner : Tracks v n 1 (Stmt.relabel v.relabel) declaration declaration')
    (enough : n < fuel) (role : FunctionRole) :
    Tracks v n 1 (FunctionDecl.relabel v.relabel) (function n declaration role)
      (Buffered.function fuel declaration' role) := by
  refine tracks_expect fun name => ?_
  refine Tracks.weaken (k := 3) ?_ (Nat.le_refl _) (Nat.zero_le 3)
  refine tracks_expect fun _ => ?_
  have names : Tracks v (n - 1 - 1) 1 (Lexeme.relabel v.relabel)
      (expect .identifier .parameterName) (Buffered.expect .identifier .parameterName) := by
    rw [← bind_pure (expect .identifier .parameterName),
      ← bind_pure (Buffered.expect .identifier .parameterName)]
    exact tracks_expect fun _ => tracks_pure rfl
  refine (tracks_parenthesized names _ _).bind fun params => tracks_expect fun _ => ?_
  refine ((tracks_block inner enough).weaken (by omega) (Nat.zero_le 1)).bind fun body => ?_
  exact tracks_pure rfl

theorem tracks_superclass :
    Tracks v n 0 (Option.map (Superclass.relabel v.relabel)) superclass Buffered.superclass := by
  refine tracks_accept ?_ (tracks_pure rfl)
  exact tracks_expect fun name => tracks_freshId.bind fun _ => tracks_pure rfl

theorem tracks_classDeclaration
    (inner : Tracks v n 1 (Stmt.relabel v.relabel) declaration declaration') (enough : n < fuel) :
    Tracks v n 1 (Stmt.relabel v.relabel) (classDeclaration n declaration)
      (Buffered.classDeclaration fuel declaration') := by
  refine tracks_expect fun name => ?_
  refine Tracks.weaken (k := 2) ?_ (Nat.le_refl _) (Nat.zero_le 2)
  refine tracks_superclass.bind fun parent => tracks_expect fun _ => ?_
  have methods := tracks_untilBrace (tracks_function inner enough .method) (Nat.le_refl n) enough
  refine (methods.weaken (by omega) (Nat.le_refl 0)).bind fun methods => ?_
  refine tracks_expect fun _ => tracks_pure ?_
  rw [Stmt.relabel, FunctionDecl.relabelEach_eq_map]

theorem tracks_statementWith
    (statements : Tracks v n 1 (Stmt.relabel v.relabel) statement statement')
    (declarations : Tracks v n 1 (Stmt.relabel v.relabel) declaration declaration')
    (enough : n < fuel) :
    Tracks v (n + 1) 1 (Stmt.relabel v.relabel) (statementWith n statement declaration)
      (Buffered.statementWith fuel statement' declaration') := by
  refine tracks_takeIf (fun start l => ?_) ?_
  · cases start with
    | forLoop => exact (tracks_forStatement statements enough).weaken (Nat.le_refl _) (Nat.zero_le _)
    | ifElse => exact (tracks_ifStatement statements enough).weaken (Nat.le_refl _) (Nat.zero_le _)
    | whileLoop =>
      exact (tracks_whileStatement statements enough).weaken (Nat.le_refl _) (Nat.zero_le _)
    | returns => exact (tracks_returnStatement enough l).weaken (Nat.le_refl _) (Nat.zero_le _)
    | block =>
      refine (tracks_block declarations enough).bind fun body => ?_
      exact tracks_pure rfl
    | print => exact (tracks_printStatement enough).weaken (Nat.le_refl _) (Nat.zero_le _)
  · exact (tracks_expressionStatement (Nat.succ_lt_succ enough)).weaken (Nat.le_refl _) (by decide)

theorem tracks_declarationWith
    (statements : Tracks v n 1 (Stmt.relabel v.relabel) statement statement')
    (declarations : Tracks v n 1 (Stmt.relabel v.relabel) declaration declaration')
    (enough : n < fuel) :
    Tracks v (n + 1) 1 (Stmt.relabel v.relabel) (declarationWith n statement declaration)
      (Buffered.declarationWith fuel statement' declaration') := by
  refine tracks_takeIf (fun start l => ?_) (tracks_statementWith statements declarations enough)
  cases start with
  | classDecl =>
    exact (tracks_classDeclaration declarations enough).weaken (Nat.le_refl _) (Nat.zero_le _)
  | function =>
    refine (tracks_function declarations enough .function).bind fun f => ?_
    exact tracks_pure rfl
  | var => exact (tracks_varDeclaration enough).weaken (Nat.le_refl _) (Nat.zero_le _)

theorem statementWith_nil {b : TokenBuffer} (shows_ : v.Shows c b) (empty : c.rest = [])
    (fuel : Nat) (statement' declaration' : Buffered Stmt) :
    Buffered.statementWith fuel statement' declaration' b =
      .error (.error (ParseError.relabel v.relabel ⟨.expression, c.place⟩)) b := by
  rw [Buffered.statementWith, Buffered.bind_ok (takeIf_nil shows_ empty _)]
  exact Buffered.bind_error (expression_nil shows_ empty fuel)

theorem tracks_statement_declaration (enough : n < fuel) :
    Tracks v n 1 (Stmt.relabel v.relabel) (Parse.statement n) (Buffered.statement fuel) ∧
      Tracks v n 1 (Stmt.relabel v.relabel) (Parse.declaration n) (Buffered.declaration fuel) := by
  induction n generalizing fuel with
  | zero =>
    obtain ⟨fuel, rfl⟩ : ∃ m, fuel = m + 1 := ⟨fuel - 1, by omega⟩
    constructor
    · exact tracks_missing fun shows_ empty => statementWith_nil shows_ empty fuel _ _
    · refine tracks_missing fun shows_ empty => ?_
      rw [Buffered.declaration, Buffered.declarationWith,
        Buffered.bind_ok (takeIf_nil shows_ empty _)]
      exact statementWith_nil shows_ empty fuel _ _
  | succ n ih =>
    obtain ⟨fuel, rfl⟩ : ∃ m, fuel = m + 1 := ⟨fuel - 1, by omega⟩
    obtain ⟨statements, declarations⟩ := ih (by omega : n < fuel)
    exact ⟨tracks_statementWith statements declarations (by omega),
      tracks_declarationWith statements declarations (by omega)⟩

end Parse
end ScopeScript
