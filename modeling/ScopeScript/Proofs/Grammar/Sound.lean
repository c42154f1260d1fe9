import ScopeScript.Parse.Program
import ScopeScript.Proofs.Grammar.Statement
import ScopeScript.Proofs.Parse.Carry

/-! What the parser accepts is in the grammar. Whatever a parser reads has a derivation with the
tree that it builds, up to the numbers of the nodes. It takes an `else` as soon as there is one, so
each stands at the nearest `if`. -/
namespace ScopeScript
open Grammar

/-- A tree without the numbers of its nodes. -/
abbrev Expr.bare (e : Expr) : Expr := e.relabel .unnumbered

abbrev Stmt.bare (s : Stmt) : Stmt := s.relabel .unnumbered

abbrev FunctionDecl.bare (f : FunctionDecl) : FunctionDecl := f.relabel .unnumbered

theorem FunctionDecl.bare_mk (name : Lexeme) (params : List Lexeme) (body : List Stmt) :
    (FunctionDecl.mk name params body).bare =
      .mk name params (Stmt.relabelEach .unnumbered body) := by
  rw [FunctionDecl.bare, FunctionDecl.relabel]
  exact congrArg (FunctionDecl.mk _ · _) (List.map_id' params)

namespace Parse
variable {α β γ : Type} {p : Parse α} {q : α → Parse β}

/-- All that `p` reads, what it builds from it and the tokens it leaves are related by `D`. -/
def Reads (p : Parse α) (D : List Token → α → List Token → Prop) : Prop :=
  ∀ c a c', p c = .ok a c' → ∃ ts, c.rest = ts ++ c'.rest ∧ D ts a c'.rest

variable {D : List Token → α → List Token → Prop} {E : List Token → β → List Token → Prop}

theorem Reads.imp {D' : List Token → α → List Token → Prop} (reads : Reads p D)
    (weaker : ∀ ts a rest, D ts a rest → D' ts a rest) : Reads p D' := by
  intro c a c' ok
  obtain ⟨ts, read, held⟩ := reads c a c' ok
  exact ⟨ts, read, weaker ts a c'.rest held⟩

/-- What was seen of the tokens to come may be forgotten. -/
theorem Reads.blind {seen : List Token → List Token → Prop} (reads : Reads p D) :
    Reads p fun ts a rest => seen ts rest → D ts a rest :=
  reads.imp fun _ _ _ held _ => held

/-- One parser after another. What the first one leaves is what the second one reads and leaves. -/
theorem Reads.bind (first : Reads p D)
    (next : ∀ a ts, Reads (q a) fun us b rest => D ts a (us ++ rest) → E (ts ++ us) b rest) :
    Reads (p >>= q) E := by
  intro c b c' ok
  obtain ⟨a, d, left, right⟩ := bind_eq_ok.mp ok
  obtain ⟨ts, read, here⟩ := first c a d left
  obtain ⟨us, read', there⟩ := next a ts d b c' right
  refine ⟨ts ++ us, ?_, there (read' ▸ here)⟩
  rw [read, read', List.append_assoc]

/-- The second parser may rely on what the first one read. -/
theorem Reads.andThen {D : List Token → α → Prop} (first : Reads p fun ts a _ => D ts a)
    (next : ∀ a ts, D ts a → Reads (q a) fun us b rest => E (ts ++ us) b rest) :
    Reads (p >>= q) E := by
  intro c b c' ok
  obtain ⟨a, d, left, right⟩ := bind_eq_ok.mp ok
  obtain ⟨ts, read, here⟩ := first c a d left
  obtain ⟨us, read', there⟩ := next a ts here d b c' right
  refine ⟨ts ++ us, ?_, there⟩
  rw [read, read', List.append_assoc]

theorem reads_pure {a : α} (good : ∀ rest, D [] a rest) : Reads (pure a) D := by
  rintro c _ _ ⟨⟩
  exact ⟨[], rfl, good c.rest⟩

theorem reads_fail (cause : ParseCause) : Reads (fail cause) D := nofun

theorem reads_freshId {q : ExprId → Parse β} (next : ∀ id, Reads (q id) E) :
    Reads (freshId >>= q) E := by
  intro c b c' ok
  obtain ⟨id, d, left, right⟩ := bind_eq_ok.mp ok
  cases left
  exact next c.nextId { c with nextId := c.nextId + 1 } b c' right

theorem reads_peek {q : Option Kind → Parse β} (next : ∀ kind, Reads (q kind) E) :
    Reads (peek >>= q) E :=
  fun c b c' ok => next _ c b c' ok

/-- A token that is read if it is of the right kind, and otherwise still stands at the front. -/
theorem reads_takeIf {select : Kind → Option γ} {q : Option (γ × Lexeme) → Parse β}
    (yes : ∀ a t, select t.kind = some a →
      Reads (q (some (a, t.toLexeme))) fun us b rest => E (t :: us) b rest)
    (no : Reads (q none) fun us b rest =>
      (∀ t ∈ (us ++ rest).head?, select t.kind = none) → E us b rest) :
    Reads (takeIf select >>= q) E := by
  intro c b c' ok
  obtain ⟨found, d, left, right⟩ := bind_eq_ok.mp ok
  simp only [takeIf] at left
  split at left
  · next empty =>
    cases left
    obtain ⟨us, read, held⟩ := no c b c' right
    refine ⟨us, read, held ?_⟩
    rw [← read, empty]
    simp
  · next t rest here =>
    split at left
    · next other =>
      cases left
      obtain ⟨us, read, held⟩ := no c b c' right
      refine ⟨us, read, held ?_⟩
      rw [← read, here]
      rintro _ ⟨⟩
      exact other
    · next a taken =>
      cases left
      obtain ⟨us, read, held⟩ := yes a t taken _ b c' right
      have left : rest = us ++ c'.rest := read
      exact ⟨t :: us, by rw [here, left, List.cons_append], held⟩

theorem reads_take? {kind : Kind} {q : Option Lexeme → Parse β}
    (yes : ∀ t : Token, t.kind = kind →
      Reads (q (some t.toLexeme)) fun us b rest => E (t :: us) b rest)
    (no : Reads (q none) fun us b rest =>
      (∀ t ∈ (us ++ rest).head?, t.kind ≠ kind) → E us b rest) :
    Reads (take? kind >>= q) E := by
  simp only [take?, bind_assoc, pure_bind]
  refine reads_takeIf (fun _ t taken => yes t ?_) (no.imp fun us b rest held other => held ?_)
  · split at taken
    · assumption
    · contradiction
  · intro t head same
    simpa [same] using other t head

theorem reads_accept {kind : Kind} {q : Bool → Parse β}
    (yes : ∀ t : Token, t.kind = kind → Reads (q true) fun us b rest => E (t :: us) b rest)
    (no : Reads (q false) fun us b rest =>
      (∀ t ∈ (us ++ rest).head?, t.kind ≠ kind) → E us b rest) :
    Reads (accept kind >>= q) E := by
  simp only [accept, bind_assoc, pure_bind]
  exact reads_take? yes no

theorem reads_expect {kind : Kind} {cause : ParseCause} {q : Lexeme → Parse β}
    (then_ : ∀ t : Token, t.kind = kind →
      Reads (q t.toLexeme) fun us b rest => E (t :: us) b rest) :
    Reads (expect kind cause >>= q) E := by
  simp only [expect, bind_assoc]
  refine reads_take? (fun t same => ?_) (fun c b c' failed => ?_)
  · simpa only [pure_bind] using then_ t same
  · cases failed

/-- Items with commas between them. Of each item only its image under `f` is told. -/
theorem reads_separated {item : Parse α} {f : α → γ} {I : List Token → γ → Prop}
    (items : Reads item fun ts a _ => I ts (f a)) (overflow : ParseCause) (room : Nat) :
    Reads (separated item overflow room) fun ts as _ => ∃ parts : List (Passage γ),
      parts.map Passage.tree = as.map f ∧ (∀ p ∈ parts, I p.tokens p.tree) ∧
        Listed (parts.map Passage.tokens) ts ∧ parts.length ≤ room ∧ parts ≠ [] := by
  induction room with
  | zero => exact reads_fail overflow
  | succ room ih =>
    apply items.andThen
    intro first ts good
    apply reads_accept
    · intro comma isComma
      apply ih.andThen
      rintro rest us ⟨parts, trees, each, listed, few, some⟩
      obtain ⟨next, others, rfl⟩ := List.exists_cons_of_ne_nil some
      apply reads_pure
      intro _
      refine ⟨⟨ts, f first⟩ :: next :: others, ?_, ?_, ?_, ?_, nofun⟩
      · rw [List.map_cons, trees, List.map_cons]
      · rintro p (_ | ⟨_, member⟩)
        · exact good
        · exact each p member
      · rw [List.append_nil]
        exact .more isComma listed
      · exact Nat.succ_le_succ few
    · apply reads_pure
      intro _ _
      refine ⟨[⟨ts, f first⟩], rfl, ?_, ?_, Nat.le_add_left 1 room, nofun⟩
      · rintro p (_ | ⟨_, ⟨⟩⟩)
        exact good
      · rw [List.append_nil]
        exact .one ts

theorem reads_parenthesized {item : Parse α} {f : α → γ} {I : List Token → γ → Prop}
    (items : Reads item fun ts a _ => I ts (f a)) (overflow unclosed : ParseCause) :
    Reads (parenthesized item overflow unclosed) fun ts r _ =>
      ∃ (parts : List (Passage γ)) (us : List Token) (closing : Token),
        parts.map Passage.tree = r.1.map f ∧ (∀ p ∈ parts, I p.tokens p.tree) ∧
          Listed (parts.map Passage.tokens) us ∧ parts.length ≤ mostItems ∧ ts = us ++ [closing] ∧
            closing.kind = .symbol .rightParen ∧ closing.toLexeme = r.2 := by
  apply reads_peek
  intro next
  dsimp only
  split
  · rw [pure_bind]
    apply reads_expect
    intro closing isClosing
    apply reads_pure
    intro _
    exact ⟨[], [], closing, rfl, nofun, .none, Nat.zero_le _, rfl, isClosing, rfl⟩
  · apply (reads_separated items overflow listLimit).andThen
    rintro as us ⟨parts, trees, each, listed, few, _⟩
    apply reads_expect
    intro closing isClosing
    apply reads_pure
    intro _
    exact ⟨parts, us, closing, trees, each, listed, few, rfl, isClosing, rfl⟩

end Parse

/-- The level that parses the operators of a tier. -/
def Grammar.Tier.level : Tier → Level
  | .logicOr => .disjunction
  | .logicAnd => .conjunction
  | .equality => .equality
  | .comparison => .comparison
  | .term => .sum
  | .factor => .product

theorem Grammar.operator_of_level {t : Tier} {k : Kind} {op : InfixOp}
    (found : t.level k = some op) : Operator t k op := by
  cases t <;> simp only [Tier.level, Level.disjunction, Level.conjunction, Level.equality,
    Level.comparison, Level.sum, Level.product] at found <;> split at found <;> cases found <;>
    constructor

theorem Grammar.sign_of_ofKind? {k : Kind} {op : UnaryOp} (found : UnaryOp.ofKind? k = some op) :
    Sign k op := by
  simp only [UnaryOp.ofKind?] at found
  split at found <;> cases found <;> constructor

namespace Parse

/-! Expressions. -/

variable {expression : Parse Expr}

/-- A parser of this phrase. -/
abbrev ReadsExpr (n : Phrase) (p : Parse Expr) : Prop := Reads p fun ts e _ => Derives n ts e.bare

theorem reads_primary (inner : ReadsExpr .expression expression) :
    ReadsExpr .primary (primary expression) := by
  apply reads_takeIf
  · intro start t found
    simp only [PrimaryStart.ofKind?] at found
    split at found <;> cases found
    case h_1 same | h_2 same | h_3 same | h_4 same | h_5 same =>
      refine reads_freshId fun _ => reads_pure fun _ => .literal ?_
      rw [same]
      constructor
    case h_6 same => exact reads_freshId fun _ => reads_pure fun _ => .this same
    case h_7 same => exact reads_freshId fun _ => reads_pure fun _ => .var same
    case h_8 isOpening =>
      apply inner.andThen
      intro e ts good
      apply reads_expect
      intro closing isClosing
      exact reads_freshId fun _ => reads_pure fun _ => .group isOpening good isClosing
  · exact reads_fail _

theorem reads_calls (inner : ReadsExpr .expression expression) (bound : Nat) {subject : Expr}
    {ts : List Token} (before : Derives .call ts subject.bare) :
    Reads (calls expression bound subject) fun us e _ => Derives .call (ts ++ us) e.bare := by
  induction bound generalizing subject ts with
  | zero => exact reads_pure fun _ => by rwa [List.append_nil]
  | succ bound ih =>
    apply reads_accept
    · intro opening isOpening
      apply (reads_parenthesized inner _ _).andThen
      rintro ⟨arguments, _⟩ us ⟨parts, vs, closing, trees, each, listed, few, rfl, isClosing, rfl⟩
      apply reads_freshId
      intro id
      have called : Derives .call (ts ++ opening :: (vs ++ [closing]))
          (Expr.call id subject arguments closing.toLexeme).bare := by
        rw [Expr.bare, Expr.relabel, Expr.relabelEach_eq_map, ← trees]
        exact .call before isOpening each listed few isClosing
      simpa using ih called
    · apply Reads.blind
      apply reads_accept
      · intro dot isDot
        apply reads_expect
        intro name isName
        apply reads_freshId
        intro id
        have property : Derives .call (ts ++ [dot, name])
            (Expr.get id subject name.toLexeme).bare := .get before isDot isName
        simpa using ih property
      · exact reads_pure fun _ _ => by rwa [List.append_nil]

theorem reads_signs (bound : Nat) :
    Reads (signs bound) fun ts signs _ => ∀ us e, Derives .unary us e →
      Derives .unary (ts ++ us) (signs.foldr (fun s e => .unary 0 s.1 s.2 e) e) := by
  induction bound with
  | zero => exact reads_pure fun _ _ _ operand => operand
  | succ bound ih =>
    apply reads_takeIf
    · intro op sign found
      apply ih.andThen
      intro rest ts good
      refine reads_pure fun _ us e operand => ?_
      rw [List.append_nil]
      exact .signed (sign_of_ofKind? found) (good us e operand)
    · exact reads_pure fun _ _ _ _ operand => operand

theorem reads_signed (before : List (UnaryOp × Lexeme)) (operand : Expr) :
    Reads (signed before operand) fun ts e _ =>
      ts = [] ∧ e.bare = before.foldr (fun s e => .unary 0 s.1 s.2 e) operand.bare := by
  induction before with
  | nil => exact reads_pure fun _ => ⟨rfl, rfl⟩
  | cons sign rest ih =>
    apply ih.andThen
    rintro inner _ ⟨rfl, same⟩
    apply reads_freshId
    intro id
    refine reads_pure fun _ => ⟨rfl, ?_⟩
    rw [List.foldr_cons, ← same]
    rfl

theorem reads_unary (inner : ReadsExpr .expression expression) (bound : Nat) :
    ReadsExpr .unary (unary bound expression) := by
  apply (reads_signs (bound + 1)).andThen
  intro before ts signs
  apply (reads_primary inner).andThen
  intro subject us good
  apply (reads_calls inner bound (.primary good)).andThen
  intro operand vs called
  apply (reads_signed before operand).imp
  rintro _ e _ ⟨rfl, same⟩
  rw [same, List.append_nil]
  exact signs _ _ (.unsigned called)

theorem reads_chainFrom {t : Tier} {operand : Parse Expr} (operands : ReadsExpr t.operand operand)
    (bound : Nat) {left : Expr} {ts : List Token} (before : Derives (.tier t) ts left.bare) :
    Reads (chainFrom t.level operand bound left) fun us e _ =>
      Derives (.tier t) (ts ++ us) e.bare := by
  induction bound generalizing left ts with
  | zero => exact reads_pure fun _ => by rwa [List.append_nil]
  | succ bound ih =>
    apply reads_takeIf
    · intro op sign found
      apply operands.andThen
      intro right us good
      apply reads_freshId
      intro id
      have node : Derives (.tier t) (ts ++ sign :: us)
          (op.node id sign.toLexeme left right).bare := by
        cases op <;> exact .infixed before (operator_of_level found) good
      simpa using ih node
    · exact reads_pure fun _ _ => by rwa [List.append_nil]

theorem reads_chain {t : Tier} {operand : Parse Expr} (operands : ReadsExpr t.operand operand)
    (bound : Nat) : ReadsExpr (.tier t) (chain bound t.level operand) :=
  operands.andThen fun _ _ good => reads_chainFrom operands bound (.operand good)

theorem reads_operation (inner : ReadsExpr .expression expression) (bound : Nat) :
    ReadsExpr (.tier .logicOr) (operation bound expression) := by
  have factor := reads_chain (t := .factor) (reads_unary inner bound) bound
  have term := reads_chain (t := .term) factor bound
  have comparison := reads_chain (t := .comparison) term bound
  have equality := reads_chain (t := .equality) comparison bound
  have logicAnd := reads_chain (t := .logicAnd) equality bound
  exact reads_chain (t := .logicOr) logicAnd bound

theorem reads_assignment (inner : ReadsExpr .expression expression) (bound : Nat) :
    ReadsExpr .expression (assignment bound expression) := by
  apply (reads_operation inner bound).andThen
  intro target ts good
  apply reads_take?
  · intro sign isSign
    apply inner.andThen
    rintro value us ⟨assigned⟩
    -- a target is a call, so the grammar allows it in front of the sign
    cases target with
    | var id written =>
      obtain ⟨name, rfl, isName, same⟩ := good.name_of_operation
      have same : name.toLexeme = written := same
      refine reads_freshId fun _ => reads_pure fun _ => .expression ?_
      rw [List.append_nil, ← same]
      exact .assign isName isSign assigned
    | get id object property =>
      obtain ⟨vs, dot, name, rfl, call, isDot, isName, same⟩ := good.property_of_operation
      have same : name.toLexeme = property := same
      refine reads_freshId fun _ => reads_pure fun _ => .expression ?_
      rw [List.append_nil, List.append_assoc, ← same]
      exact .set call isDot isName isSign assigned
    | literal _ _ | group _ _ | this _ _ | assign _ _ _ | unary _ _ _ _ | binary _ _ _ _ _
    | logical _ _ _ _ _ | call _ _ _ _ | set _ _ _ _ => exact nofun
  · refine reads_pure fun _ _ => .expression ?_
    rw [List.append_nil]
    exact .operation good

theorem reads_expression (bound : Nat) : ReadsExpr .expression (Parse.expression bound) := by
  induction bound with
  | zero => exact reads_fail _
  | succ bound ih => exact reads_assignment ih bound

/-! Statements, each behind the keyword or brace that it begins with. -/

theorem reads_optionalBefore (ending : Kind) (bound : Nat) :
    Reads (optionalBefore ending bound) fun ts e _ => Optional ts (e.map Expr.bare) := by
  apply reads_peek
  intro next
  split
  · exact reads_pure fun _ => .none
  · apply (reads_expression bound).andThen
    intro e ts good
    refine reads_pure fun _ => ?_
    rw [List.append_nil]
    exact .some good

theorem reads_expressionStatement (bound : Nat) :
    Reads (expressionStatement bound) fun ts s _ => ExprStmt ts s.bare := by
  apply (reads_expression bound).andThen
  intro value ts good
  apply reads_expect
  intro semicolon isSemicolon
  exact reads_pure fun _ => .mk good isSemicolon

theorem reads_varDeclaration {keyword : Token} (isVar : keyword.kind = .keyword .kwVar)
    (bound : Nat) :
    Reads (varDeclaration bound) fun ts s _ => VarDecl (keyword :: ts) s.bare := by
  apply reads_expect
  intro name isName
  apply reads_accept
  · intro sign isSign
    apply (reads_expression bound).andThen
    intro e ts good
    apply reads_expect
    intro semicolon isSemicolon
    exact reads_pure fun _ => .initial isVar isName isSign good isSemicolon
  · apply Reads.blind
    apply reads_expect
    intro semicolon isSemicolon
    exact reads_pure fun _ => .empty isVar isName isSemicolon

theorem reads_forFirst (bound : Nat) :
    Reads (forFirst bound) fun ts first _ => FirstClause ts (first.map Stmt.bare) := by
  apply reads_accept
  · intro semicolon isSemicolon
    exact reads_pure fun _ => .empty isSemicolon
  · apply Reads.blind
    apply reads_accept
    · intro keyword isVar
      apply (reads_varDeclaration isVar bound).andThen
      intro s ts good
      refine reads_pure fun _ => ?_
      rw [List.append_nil]
      exact .var good
    · apply Reads.blind
      apply (reads_expressionStatement bound).andThen
      intro s ts good
      refine reads_pure fun _ => ?_
      rw [List.append_nil]
      exact .expression good

/-- A statement. No `else` follows one that is open. -/
def Sentence (ts : List Token) (s : Stmt) (rest : List Token) : Prop :=
  ∃ isOpen, StmtDerives true (.statement isOpen) ts s.bare ∧
    (isOpen = true → ∀ t ∈ rest.head?, t.kind ≠ .keyword .kwElse)

/-- A statement that is not open. -/
theorem Sentence.closed {ts : List Token} {s : Stmt} {rest : List Token}
    (derives : StmtDerives true (.statement false) ts s.bare) : Sentence ts s rest :=
  ⟨false, derives, nofun⟩

variable {statement declaration : Parse Stmt} {keyword : Token}

theorem reads_printStatement (isPrint : keyword.kind = .keyword .kwPrint) (bound : Nat) :
    Reads (printStatement bound) fun ts s rest => Sentence (keyword :: ts) s rest := by
  apply (reads_expression bound).andThen
  intro value ts good
  apply reads_expect
  intro semicolon isSemicolon
  exact reads_pure fun _ => .closed (.printStmt isPrint good isSemicolon)

theorem reads_returnStatement (isReturn : keyword.kind = .keyword .kwReturn) (bound : Nat) :
    Reads (returnStatement bound keyword.toLexeme) fun ts s rest =>
      Sentence (keyword :: ts) s rest := by
  apply (reads_optionalBefore _ bound).andThen
  intro value ts good
  apply reads_expect
  intro semicolon isSemicolon
  exact reads_pure fun _ => .closed (.returnStmt isReturn good isSemicolon)

theorem reads_ifStatement (inner : Reads statement Sentence)
    (isIf : keyword.kind = .keyword .kwIf) (bound : Nat) :
    Reads (ifStatement bound statement) fun ts s rest => Sentence (keyword :: ts) s rest := by
  apply reads_expect
  intro opening isOpening
  apply (reads_expression bound).andThen
  intro condition ts good
  apply reads_expect
  intro closing isClosing
  apply inner.bind
  intro yes us
  apply reads_accept
  · intro other isElse
    apply inner.bind
    rintro no vs
    refine reads_pure fun rest => ?_
    rintro ⟨isOpen', branch', follows'⟩ ⟨isOpen, branch, follows⟩
    -- an open branch would have taken this `else`
    have closed : isOpen = false := by
      cases isOpen with
      | false => rfl
      | true => exact absurd isElse (follows rfl other rfl)
    refine ⟨isOpen', ?_, follows'⟩
    rw [List.append_nil]
    exact .ifElse isIf isOpening good isClosing branch (fun _ => closed) isElse branch'
  · refine reads_pure fun rest => ?_
    rintro noElse ⟨isOpen, branch, _⟩
    refine ⟨true, ?_, fun _ => noElse⟩
    rw [List.append_nil]
    exact .ifThen isIf isOpening good isClosing branch

theorem reads_whileStatement (inner : Reads statement Sentence)
    (isWhile : keyword.kind = .keyword .kwWhile) (bound : Nat) :
    Reads (whileStatement bound statement) fun ts s rest => Sentence (keyword :: ts) s rest := by
  apply reads_expect
  intro opening isOpening
  apply (reads_expression bound).andThen
  intro condition ts good
  apply reads_expect
  intro closing isClosing
  apply inner.bind
  intro body us
  refine reads_pure fun rest => ?_
  rintro ⟨isOpen, loop, follows⟩
  refine ⟨isOpen, ?_, follows⟩
  rw [List.append_nil]
  exact .whileStmt isWhile isOpening good isClosing loop

/-- The loop that a `for` becomes, with or without a number for a missing condition. -/
theorem forLoop_bare (first : Option Stmt) (condition : Option Expr) (id : ExprId)
    (step : Option Expr) (body : Stmt) :
    (Stmt.forLoop first (condition.getD (.literal id (.boolean true))) step body).bare =
      desugared (first.map Stmt.bare) (condition.map Expr.bare) (step.map Expr.bare) body.bare := by
  cases first <;> cases condition <;> cases step <;> rfl

theorem reads_forStatement (inner : Reads statement Sentence)
    (isFor : keyword.kind = .keyword .kwFor) (bound : Nat) :
    Reads (forStatement bound statement) fun ts s rest => Sentence (keyword :: ts) s rest := by
  apply reads_expect
  intro opening isOpening
  apply (reads_forFirst bound).andThen
  intro first ts clause
  apply (reads_optionalBefore _ bound).andThen
  intro condition us guarded
  apply reads_expect
  intro semicolon isSemicolon
  apply (reads_optionalBefore _ bound).andThen
  intro step vs stepped
  apply reads_expect
  intro closing isClosing
  apply inner.bind
  intro body ws
  have loop (id : ExprId) (rest : List Token) (sentence : Sentence ws body rest) :
      Sentence (keyword :: opening :: (ts ++ (us ++ semicolon :: (vs ++ closing :: ws))))
        (Stmt.forLoop first (condition.getD (.literal id (.boolean true))) step body) rest := by
    obtain ⟨isOpen, inside, follows⟩ := sentence
    refine ⟨isOpen, ?_, follows⟩
    rw [forLoop_bare]
    exact .forStmt isFor isOpening clause guarded isSemicolon stepped isClosing inside
  cases condition with
  | some e =>
    refine reads_pure fun rest sentence => ?_
    rw [List.append_nil]
    exact loop 0 rest sentence
  | none =>
    refine reads_freshId fun id => reads_pure fun rest sentence => ?_
    rw [List.append_nil]
    exact loop id rest sentence

/-- Items up to a brace, one after the other. -/
theorem reads_untilBrace {item : Parse α} {f : α → γ} {I : List Token → γ → Prop}
    (items : Reads item fun ts a _ => I ts (f a)) (bound : Nat) :
    Reads (untilBrace item bound) fun ts as _ => ∃ parts : List (Passage γ),
      parts.map Passage.tree = as.map f ∧ (∀ p ∈ parts, I p.tokens p.tree) ∧
        ts = parts.flatMap Passage.tokens := by
  induction bound with
  | zero => exact reads_pure fun _ => ⟨[], rfl, nofun, rfl⟩
  | succ bound ih =>
    apply reads_peek
    intro next
    split
    · exact reads_pure fun _ => ⟨[], rfl, nofun, rfl⟩
    · exact reads_pure fun _ => ⟨[], rfl, nofun, rfl⟩
    · apply items.andThen
      intro first ts good
      apply ih.andThen
      rintro rest _ ⟨parts, trees, each, rfl⟩
      refine reads_pure fun _ => ⟨⟨ts, f first⟩ :: parts, ?_, ?_, ?_⟩
      · rw [List.map_cons, trees, List.map_cons]
      · rintro p (_ | ⟨_, member⟩)
        · exact good
        · exact each p member
      · rw [List.append_nil, List.flatMap_cons]

/-- A parser of declarations. -/
abbrev ReadsDecl (p : Parse Stmt) : Prop :=
  Reads p fun ts s _ => StmtDerives true .declaration ts s.bare

theorem reads_block (inner : ReadsDecl declaration) {opening : Token}
    (isOpening : opening.kind = .symbol .leftBrace) (bound : Nat) :
    Reads (block bound declaration) fun ts body _ =>
      StmtDerives true .block (opening :: ts) (Stmt.block body).bare := by
  apply (reads_untilBrace inner bound).andThen
  rintro body _ ⟨parts, trees, each, rfl⟩
  apply reads_expect
  intro closing isClosing
  refine reads_pure fun _ => ?_
  rw [Stmt.bare, Stmt.relabel, Stmt.relabelEach_eq_map, ← trees]
  exact .block isOpening each isClosing

/-- Derivations of functions and methods. -/
abbrev FunctionDerives (ts : List Token) (f : FunctionDecl) : Prop :=
  StmtDerives true .function ts (.function f)

theorem reads_function (inner : ReadsDecl declaration) (bound : Nat) (role : FunctionRole) :
    Reads (function bound declaration role) fun ts f _ => FunctionDerives ts f.bare := by
  apply reads_expect
  intro name isName
  apply reads_expect
  intro opening isOpening
  have names : Reads (expect .identifier .parameterName) fun ts l _ => Named ts (id l) := by
    rw [← bind_pure (expect .identifier .parameterName)]
    exact reads_expect fun t isParam => reads_pure fun _ => .mk isParam
  apply (reads_parenthesized names _ _).andThen
  rintro ⟨params, _⟩ _ ⟨parts, ts, closing, trees, each, listed, few, rfl, isClosing, rfl⟩
  apply reads_expect
  intro brace isBrace
  apply (reads_block inner isBrace bound).andThen
  intro body us good
  refine reads_pure fun _ => ?_
  have trees : parts.map Passage.tree = params := by rw [trees, List.map_id]
  rw [FunctionDecl.bare_mk, ← trees]
  simpa using StmtDerives.function isName isOpening each listed few isClosing good

theorem reads_superclass :
    Reads superclass fun ts parent _ =>
      Parent ts (parent.map (Superclass.relabel .unnumbered)) := by
  apply reads_accept
  · intro sign isSign
    apply reads_expect
    intro name isName
    exact reads_freshId fun _ => reads_pure fun _ => .some isSign isName
  · exact reads_pure fun _ _ => .none

theorem reads_classDeclaration (inner : ReadsDecl declaration)
    (isClass : keyword.kind = .keyword .kwClass) (bound : Nat) :
    Reads (classDeclaration bound declaration) fun ts s _ =>
      StmtDerives true .declaration (keyword :: ts) s.bare := by
  apply reads_expect
  intro name isName
  apply reads_superclass.andThen
  intro parent ts inherits
  apply reads_expect
  intro opening isOpening
  apply (reads_untilBrace (reads_function inner bound .method) bound).andThen
  rintro methods _ ⟨parts, trees, each, rfl⟩
  apply reads_expect
  intro closing isClosing
  refine reads_pure fun _ => ?_
  rw [Stmt.bare, Stmt.relabel, FunctionDecl.relabelEach_eq_map, ← trees]
  exact .classDecl isClass isName inherits isOpening each isClosing

theorem reads_statementWith (statements : Reads statement Sentence)
    (declarations : ReadsDecl declaration) (bound : Nat) :
    Reads (statementWith bound statement declaration) Sentence := by
  apply reads_takeIf
  · intro start t found
    simp only [StatementStart.ofKind?] at found
    split at found <;> cases found
    case h_1 isFor => exact reads_forStatement statements isFor bound
    case h_2 isIf => exact reads_ifStatement statements isIf bound
    case h_3 isWhile => exact reads_whileStatement statements isWhile bound
    case h_4 isReturn => exact reads_returnStatement isReturn bound
    case h_5 isOpening =>
      apply (reads_block declarations isOpening bound).andThen
      intro body ts good
      refine reads_pure fun _ => ?_
      rw [List.append_nil]
      exact .closed (.blockStmt good)
    case h_6 isPrint => exact reads_printStatement isPrint bound
  · apply Reads.blind
    exact (reads_expressionStatement (bound + 1)).imp fun _ _ _ good => .closed (.exprStmt good)

theorem reads_declarationWith (statements : Reads statement Sentence)
    (declarations : ReadsDecl declaration) (bound : Nat) :
    ReadsDecl (declarationWith bound statement declaration) := by
  apply reads_takeIf
  · intro start t found
    simp only [DeclarationStart.ofKind?] at found
    split at found <;> cases found
    case h_1 isClass => exact reads_classDeclaration declarations isClass bound
    case h_2 isFun =>
      apply (reads_function declarations bound .function).andThen
      intro f ts good
      refine reads_pure fun _ => ?_
      rw [List.append_nil]
      exact .funDecl isFun good
    case h_3 isVar => exact (reads_varDeclaration isVar bound).imp fun _ _ _ good => .varDecl good
  · apply Reads.blind
    apply (reads_statementWith statements declarations bound).imp
    rintro ts s rest ⟨isOpen, good, _⟩
    exact .statement good

theorem reads_statement_declaration (bound : Nat) :
    Reads (Parse.statement bound) Sentence ∧ ReadsDecl (Parse.declaration bound) := by
  induction bound with
  | zero => exact ⟨reads_fail _, reads_fail _⟩
  | succ bound ih =>
    exact ⟨reads_statementWith ih.1 ih.2 bound, reads_declarationWith ih.1 ih.2 bound⟩

end Parse

/-- A program that is parsed without errors is one of the grammar. -/
theorem parseFrom_sound {bound : Nat} {c : Cursor} (size : c.rest.length ≤ bound)
    (clean : (parseFrom bound c).errors = []) :
    Program true c.rest (Stmt.relabelEach .unnumbered (parseFrom bound c).statements) := by
  induction bound generalizing c with
  | zero =>
    have empty : c.rest = [] := List.eq_nil_of_length_eq_zero (Nat.le_zero.mp size)
    rw [empty]
    exact .nil true
  | succ bound ih =>
    by_cases empty : c.rest = []
    · rw [parseFrom_of_rest_eq_nil empty, empty]
      exact .nil true
    · obtain ⟨s, c', ok⟩ := declaration_of_clean empty clean
      rw [parseFrom_of_ok empty ok] at clean ⊢
      obtain ⟨ts, read, good⟩ := (Parse.reads_statement_declaration (bound + 1)).2 c s c' ok
      have reads := good.length_pos
      rw [read, List.length_append] at size
      exact read ▸ (ih (by omega) clean).cons good

end ScopeScript
