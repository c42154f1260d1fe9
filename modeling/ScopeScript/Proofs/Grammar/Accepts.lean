import Mathlib.Data.List.Permutation
import ScopeScript.Proofs.Grammar.Complete

/-! The parser and the grammar agree. Statements are read to their ends like expressions, where an
open one is followed by no `else`. A token list is accepted if and only if the grammar derives it,
and the tree is that of the derivation in which each `else` belongs to the nearest `if`. -/
namespace ScopeScript
open Grammar

/-- No statement that begins like an expression begins with a keyword or a brace. -/
theorem Grammar.Begins.not_statement {k : Kind} (begins : Begins k) :
    Parse.StatementStart.ofKind? k = none := by
  cases begins with
  | sign sign => cases sign <;> rfl
  | constant constant => cases constant <;> rfl
  | this | name | group => rfl

namespace Parse
variable {α γ : Type} {ts us rest : List Token} {e : Expr} {s : Stmt} {bound : Nat}
  {P : α → Prop} {kind : Kind} {cause : ParseCause} {ending : Token}

/-- The tokens that end an expression inside a statement. -/
abbrev Closes (k : Kind) : Prop := k = .symbol .semicolon ∨ k = .symbol .rightParen

theorem Closes.follows (closes : Closes kind) (isEnding : ending.kind = kind) (rest : List Token) :
    Follows (ending :: rest) := by
  apply follows_cons
  rw [isEnding]
  rcases closes with same | same
  · exact .inl same
  · exact .inr (.inr same)

theorem Closes.not_begins (closes : Closes kind) : ¬ Begins kind := by
  intro begins
  rcases closes with rfl | rfl <;> cases begins with
  | sign sign => cases sign
  | constant constant => cases constant

/-- An expression and the token that ends it. -/
theorem builds_clause {q : Expr → Parse α} (closes : Closes kind)
    (derives : Derives .expression ts e) (isEnding : ending.kind = kind)
    (size : (ts ++ ending :: (us ++ rest)).length ≤ bound)
    (next : ∀ value : Expr, value.bare = e → Builds (q value) us rest P) :
    Builds (Parse.expression bound >>= fun value => expect kind cause >>= fun _ => q value)
      (ts ++ ending :: us) rest P := by
  have inside := derives.completes bound _ size (closes.follows isEnding _)
  exact Leads.bind inside fun value same => leads_expect isEnding (next value same)

/-- An expression that may be missing and the token that ends it. -/
theorem builds_optionalClause {value : Option Expr} {q : Option Expr → Parse α}
    (closes : Closes kind) (optional : Optional ts value) (isEnding : ending.kind = kind)
    (size : (ts ++ ending :: (us ++ rest)).length ≤ bound)
    (next : ∀ e : Option Expr, e.map Expr.bare = value → Builds (q e) us rest P) :
    Builds (optionalBefore kind bound >>= fun e => expect kind cause >>= fun _ => q e)
      (ts ++ ending :: us) rest P := by
  have inside : Builds (optionalBefore kind bound) ts (ending :: (us ++ rest))
      (·.map Expr.bare = value) := by
    apply leads_peek
    cases optional with
    | none =>
      rw [if_pos (by simp [isEnding])]
      exact builds_pure rfl
    | some derives =>
      obtain ⟨first, others, rfl, begins⟩ := derives.begins
      rw [if_neg]
      · have read := derives.completes bound _ size (closes.follows isEnding _)
        exact Leads.bindLast read fun e same => builds_pure (congrArg some same)
      · intro same
        have same : first.kind = kind := Option.some.inj same
        exact closes.not_begins (same ▸ begins)
  exact Leads.bind inside fun value same => leads_expect isEnding (next value same)

theorem builds_expressionStatement (derives : ExprStmt ts s) (size : (ts ++ rest).length ≤ bound) :
    Builds (expressionStatement bound) ts rest (·.bare = s) := by
  obtain ⟨value, isSemicolon⟩ := derives
  refine builds_clause (.inl rfl) value isSemicolon (by simpa using size) fun e same => ?_
  exact builds_pure (congrArg Stmt.expression same)

theorem builds_varDeclaration (derives : VarDecl ts s) :
    ∃ keyword us, ts = keyword :: us ∧ keyword.kind = .keyword .kwVar ∧
      ∀ bound rest, (us ++ rest).length ≤ bound →
        Builds (varDeclaration bound) us rest (·.bare = s) := by
  cases derives with
  | empty isVar isName isSemicolon =>
    refine ⟨_, _, rfl, isVar, fun bound rest size => leads_expect isName (leads_refuse ?_ ?_)⟩
    · rintro _ ⟨⟩
      rw [isSemicolon]
      nofun
    · exact leads_expect isSemicolon (builds_pure rfl)
  | initial isVar isName isSign value isSemicolon =>
    refine ⟨_, _, rfl, isVar, fun bound rest size => leads_expect isName (leads_accept isSign ?_)⟩
    simp only [pure_bind]
    have shorter := Nat.le_of_succ_le (Nat.le_of_succ_le size)
    refine builds_clause (.inl rfl) value isSemicolon (by simpa using shorter) fun e same => ?_
    exact builds_pure (congrArg (fun e => Stmt.var _ (some e)) same)

theorem builds_forFirst {first : Option Stmt} (derives : FirstClause ts first)
    (size : (ts ++ rest).length ≤ bound) :
    Builds (forFirst bound) ts rest (·.map Stmt.bare = first) := by
  cases derives with
  | empty isSemicolon => exact leads_accept isSemicolon (builds_pure rfl)
  | var derives =>
    obtain ⟨keyword, us, rfl, isVar, builds⟩ := builds_varDeclaration derives
    refine leads_refuse ?_ (leads_accept isVar ?_)
    · rintro _ ⟨⟩
      rw [isVar]
      nofun
    · refine Leads.bindLast (builds bound rest (Nat.le_of_succ_le size)) fun s same => ?_
      exact builds_pure (congrArg some same)
  | expression derives =>
    obtain ⟨value, _⟩ := id derives
    obtain ⟨first, us, rfl, begins⟩ := value.begins
    refine leads_refuse ?_ (leads_refuse ?_ ?_)
    · rintro _ ⟨⟩ same
      exact Closes.not_begins (.inl same) begins
    · rintro _ ⟨⟩ same
      exact (begins.heads false).2.2.2 same
    · refine Leads.bindLast (builds_expressionStatement derives size) fun s same => ?_
      exact builds_pure (congrArg some same)

/-! Statements. -/

/-- No `else` follows. -/
abbrev NoElse (rest : List Token) : Prop := ∀ t ∈ rest.head?, t.kind ≠ .keyword .kwElse

/-- What it means for the parser to read a derivation of a statement. -/
def CompletesStmt : StmtPhrase → List Token → Stmt → Prop
  | .declaration, ts, s => ∀ bound rest, (ts ++ rest).length ≤ bound → NoElse rest →
    Builds (Parse.declaration bound) ts rest (·.bare = s)
  | .function, ts, s => ∀ bound rest role, (ts ++ rest).length ≤ bound + 1 →
    Builds (function bound (Parse.declaration bound) role) ts rest
      fun f => (Stmt.function f).bare = s
  | .statement isOpen, ts, s => ∀ bound rest, (ts ++ rest).length ≤ bound →
    (isOpen = true → NoElse rest) → Builds (Parse.statement bound) ts rest (·.bare = s)
  | .block, ts, s => ∃ opening us, ts = opening :: us ∧ opening.kind = .symbol .leftBrace ∧
    ∀ bound rest, (us ++ rest).length ≤ bound →
      Builds (block bound (Parse.declaration bound)) us rest fun body => (Stmt.block body).bare = s

theorem completes_exprStmt (derives : ExprStmt ts s) : CompletesStmt (.statement false) ts s := by
  intro bound rest size _
  obtain ⟨value, _⟩ := id derives
  obtain ⟨first, us, rfl, begins⟩ := value.begins
  obtain ⟨bound, rfl⟩ : ∃ n, bound = n + 1 := ⟨bound - 1, by simp at size; omega⟩
  refine leads_leave ?_ (builds_expressionStatement derives size)
  rintro _ ⟨⟩
  exact begins.not_statement

section Keyword
variable {keyword opening closing semicolon : Token} {isOpen : Bool}

theorem completes_printStmt {value : Expr} (isPrint : keyword.kind = .keyword .kwPrint)
    (derives : Derives .expression ts value) (isSemicolon : semicolon.kind = .symbol .semicolon) :
    CompletesStmt (.statement false) (keyword :: (ts ++ [semicolon])) (.print value) := by
  intro bound rest size _
  obtain ⟨bound, rfl⟩ : ∃ n, bound = n + 1 := ⟨bound - 1, by simp at size; omega⟩
  have found : StatementStart.ofKind? keyword.kind = some .print := by rw [isPrint]; rfl
  have shorter := Nat.le_of_succ_le_succ size
  refine leads_take found (builds_clause (.inl rfl) derives isSemicolon (by simpa using shorter) ?_)
  exact fun e same => builds_pure (congrArg Stmt.print same)

theorem completes_returnStmt {value : Option Expr} (isReturn : keyword.kind = .keyword .kwReturn)
    (derives : Optional ts value) (isSemicolon : semicolon.kind = .symbol .semicolon) :
    CompletesStmt (.statement false) (keyword :: (ts ++ [semicolon]))
      (.returns keyword.toLexeme value) := by
  intro bound rest size _
  obtain ⟨bound, rfl⟩ : ∃ n, bound = n + 1 := ⟨bound - 1, by simp at size; omega⟩
  have found : StatementStart.ofKind? keyword.kind = some .returns := by rw [isReturn]; rfl
  have shorter := Nat.le_of_succ_le_succ size
  refine leads_take found
    (builds_optionalClause (.inl rfl) derives isSemicolon (by simpa using shorter) ?_)
  exact fun e same => builds_pure (congrArg (Stmt.returns _) same)

theorem completes_whileStmt {condition : Expr} {body : Stmt}
    (isWhile : keyword.kind = .keyword .kwWhile) (isOpening : opening.kind = .symbol .leftParen)
    (derives : Derives .expression ts condition) (isClosing : closing.kind = .symbol .rightParen)
    (inner : CompletesStmt (.statement isOpen) us body) :
    CompletesStmt (.statement isOpen) (keyword :: opening :: (ts ++ closing :: us))
      (.whileLoop condition body) := by
  intro bound rest size noElse
  simp only [List.cons_append, List.append_assoc, List.length_cons, List.length_append] at size
  obtain ⟨bound, rfl⟩ : ∃ n, bound = n + 1 := ⟨bound - 1, by omega⟩
  have found : StatementStart.ofKind? keyword.kind = some .whileLoop := by rw [isWhile]; rfl
  refine leads_take found (leads_expect isOpening ?_)
  refine builds_clause (.inr rfl) derives isClosing ?_ fun e guard => ?_
  · simp only [List.length_cons, List.length_append]
    omega
  · have round := inner bound rest (by rw [List.length_append]; omega) noElse
    refine Leads.bindLast round fun s same => builds_pure ?_
    rw [← guard, ← same]
    rfl

theorem completes_ifThen {condition : Expr} {yes : Stmt}
    (isIf : keyword.kind = .keyword .kwIf) (isOpening : opening.kind = .symbol .leftParen)
    (derives : Derives .expression ts condition) (isClosing : closing.kind = .symbol .rightParen)
    (inner : CompletesStmt (.statement isOpen) us yes) :
    CompletesStmt (.statement true) (keyword :: opening :: (ts ++ closing :: us))
      (.ifThen condition yes) := by
  intro bound rest size noElse
  simp only [List.cons_append, List.append_assoc, List.length_cons, List.length_append] at size
  obtain ⟨bound, rfl⟩ : ∃ n, bound = n + 1 := ⟨bound - 1, by omega⟩
  have found : StatementStart.ofKind? keyword.kind = some .ifElse := by rw [isIf]; rfl
  refine leads_take found (leads_expect isOpening ?_)
  refine builds_clause (.inr rfl) derives isClosing ?_ fun e guard => ?_
  · simp only [List.length_cons, List.length_append]
    omega
  · have branch := inner bound rest (by rw [List.length_append]; omega) fun _ => noElse rfl
    refine Leads.bindLast branch fun s same => leads_refuse (noElse rfl) (builds_pure ?_)
    rw [← guard, ← same]
    rfl

theorem completes_ifElse {other : Token} {vs : List Token} {condition : Expr} {yes no : Stmt}
    (isIf : keyword.kind = .keyword .kwIf) (isOpening : opening.kind = .symbol .leftParen)
    (derives : Derives .expression ts condition) (isClosing : closing.kind = .symbol .rightParen)
    (inner : CompletesStmt (.statement false) us yes) (isElse : other.kind = .keyword .kwElse)
    (inner' : CompletesStmt (.statement isOpen) vs no) :
    CompletesStmt (.statement isOpen)
      (keyword :: opening :: (ts ++ closing :: (us ++ other :: vs)))
      (.ifElse condition yes no) := by
  intro bound rest size noElse
  simp only [List.cons_append, List.append_assoc, List.length_cons, List.length_append] at size
  obtain ⟨bound, rfl⟩ : ∃ n, bound = n + 1 := ⟨bound - 1, by omega⟩
  have found : StatementStart.ofKind? keyword.kind = some .ifElse := by rw [isIf]; rfl
  refine leads_take found (leads_expect isOpening ?_)
  refine builds_clause (.inr rfl) derives isClosing ?_ fun e guard => ?_
  · simp only [List.length_cons, List.length_append]
    omega
  · have branch := inner bound (other :: vs ++ rest)
      (by simp only [List.length_cons, List.length_append]; omega) nofun
    have branch' := inner' bound rest (by rw [List.length_append]; omega) noElse
    refine Leads.bind branch fun s same => leads_accept isElse ?_
    refine Leads.bindLast branch' fun s' same' => builds_pure ?_
    rw [← guard, ← same, ← same']
    rfl

theorem completes_forStmt {vs ws : List Token} {first : Option Stmt} {condition step : Option Expr}
    {body : Stmt} (isFor : keyword.kind = .keyword .kwFor)
    (isOpening : opening.kind = .symbol .leftParen) (clause : FirstClause ts first)
    (guarded : Optional us condition) (isSemicolon : semicolon.kind = .symbol .semicolon)
    (stepped : Optional vs step) (isClosing : closing.kind = .symbol .rightParen)
    (inner : CompletesStmt (.statement isOpen) ws body) :
    CompletesStmt (.statement isOpen)
      (keyword :: opening :: (ts ++ (us ++ semicolon :: (vs ++ closing :: ws))))
      (desugared first condition step body) := by
  intro bound rest size noElse
  simp only [List.cons_append, List.append_assoc, List.length_cons, List.length_append] at size
  obtain ⟨bound, rfl⟩ : ∃ n, bound = n + 1 := ⟨bound - 1, by omega⟩
  have found : StatementStart.ofKind? keyword.kind = some .forLoop := by rw [isFor]; rfl
  have round := inner bound rest (by rw [List.length_append]; omega) noElse
  have start : Builds (forFirst bound) ts (us ++ semicolon :: (vs ++ closing :: ws) ++ rest)
      (·.map Stmt.bare = first) := by
    apply builds_forFirst clause
    simp only [List.cons_append, List.append_assoc, List.length_cons, List.length_append]
    omega
  refine leads_take found (leads_expect isOpening (Leads.bind start fun first' began => ?_))
  refine builds_optionalClause (.inl rfl) guarded isSemicolon ?_ fun condition' guard => ?_
  · simp only [List.cons_append, List.append_assoc, List.length_cons, List.length_append]
    omega
  refine builds_optionalClause (.inr rfl) stepped isClosing ?_ fun step' advance => ?_
  · simp only [List.length_cons, List.length_append]
    omega
  refine Leads.bindLast round fun s same => ?_
  rw [← began, ← guard, ← advance, ← same]
  cases condition' with
  | some e => exact builds_pure (forLoop_bare first' (some e) 0 step' s)
  | none => exact leads_freshId fun id => builds_pure (forLoop_bare first' none id step' s)

end Keyword

/-! Blocks, functions and classes. -/

/-- The parts of a block or a class. -/
abbrev BuildsRun (item : Parse α) (f : α → γ) (n : Nat) (parts : List (Passage γ)) : Prop :=
  BuildsItems item f n StmtPhrase.declaration.Heads NoElse parts

/-- Neither one part nor a closing brace looks like an `else`. -/
theorem BuildsRun.noElse {item : Parse α} {f : α → γ} {n : Nat} {parts : List (Passage γ)}
    (items : BuildsRun item f n parts) (last : NoElse rest) :
    NoElse (parts.flatMap Passage.tokens ++ rest) := by
  cases parts with
  | nil => exact last
  | cons next others =>
    obtain ⟨⟨first, us, begins, heads⟩, _⟩ := items next List.mem_cons_self
    rw [List.flatMap_cons, begins]
    rintro _ ⟨⟩
    exact heads.2

theorem builds_untilBrace {item : Parse α} {f : α → γ} {n : Nat} {parts : List (Passage γ)}
    (items : BuildsRun item f n parts) {closing : Token}
    (isClosing : closing.kind = .symbol .rightBrace)
    (size : (parts.flatMap Passage.tokens ++ closing :: rest).length ≤ n)
    (enough : (parts.flatMap Passage.tokens ++ closing :: rest).length ≤ bound) :
    Builds (untilBrace item bound) (parts.flatMap Passage.tokens) (closing :: rest)
      fun as => as.map f = parts.map Passage.tree := by
  induction parts generalizing bound with
  | nil =>
    cases bound with
    | zero => exact builds_pure rfl
    | succ bound =>
      apply leads_peek
      simp only [List.flatMap_nil, List.nil_append, List.head?_cons, Option.map_some, isClosing]
      exact builds_pure rfl
  | cons part others ih =>
    have later : BuildsRun item f n others := fun p member =>
      items p (List.mem_cons_of_mem _ member)
    obtain ⟨⟨first, us, begins, heads⟩, read⟩ := items part List.mem_cons_self
    have noElse : NoElse (others.flatMap Passage.tokens ++ closing :: rest) := by
      apply later.noElse
      rintro _ ⟨⟩
      rw [isClosing]
      nofun
    simp only [List.flatMap_cons, List.append_assoc] at size enough ⊢
    have here := read _ noElse size
    rw [begins] at enough
    simp only [List.cons_append, List.length_cons, List.length_append] at size enough
    obtain ⟨bound, rfl⟩ : ∃ n, bound = n + 1 := ⟨bound - 1, by omega⟩
    have after : Builds (untilBrace item bound) (others.flatMap Passage.tokens) (closing :: rest)
        fun as => as.map f = others.map Passage.tree := by
      apply ih later <;> simp only [List.length_cons, List.length_append] <;> omega
    apply leads_peek
    have head : (part.tokens ++ others.flatMap Passage.tokens ++ closing :: rest).head?.map
        (·.kind) = some first.kind := by simp [begins]
    rw [head]
    split
    · contradiction
    · next same => exact absurd (Option.some.inj same) heads.1
    · refine Leads.bind here fun a same => Leads.bindLast after fun as trees => builds_pure ?_
      rw [List.map_cons, List.map_cons, same, trees]

theorem completes_block {opening closing : Token} {body : List (Passage Stmt)}
    (isOpening : opening.kind = .symbol .leftBrace)
    (derive : ∀ p ∈ body, StmtDerives true .declaration p.tokens p.tree)
    (each : ∀ p ∈ body, CompletesStmt .declaration p.tokens p.tree)
    (isClosing : closing.kind = .symbol .rightBrace) :
    CompletesStmt .block (opening :: (body.flatMap Passage.tokens ++ [closing]))
      (.block (body.map Passage.tree)) := by
  refine ⟨opening, _, rfl, isOpening, fun bound rest size => ?_⟩
  have items : BuildsRun (Parse.declaration bound) Stmt.bare bound body := fun p member =>
    ⟨(derive p member).begins, fun rest noElse size => each p member bound rest size noElse⟩
  rw [List.append_assoc, List.singleton_append] at size
  refine Leads.bind (builds_untilBrace items isClosing size size) fun parts trees => ?_
  refine leads_expect isClosing (builds_pure ?_)
  rw [← trees, ← Stmt.relabelEach_eq_map]
  rfl

theorem completes_blockStmt (inner : CompletesStmt .block ts s) :
    CompletesStmt (.statement false) ts s := by
  intro bound rest size _
  obtain ⟨opening, us, rfl, isOpening, builds⟩ := inner
  obtain ⟨bound, rfl⟩ : ∃ n, bound = n + 1 := ⟨bound - 1, by simp at size; omega⟩
  have found : StatementStart.ofKind? opening.kind = some .block := by rw [isOpening]; rfl
  refine leads_take found (Leads.bindLast (builds bound rest (Nat.le_of_succ_le_succ size)) ?_)
  exact fun body same => builds_pure same

theorem completes_function {name opening closing : Token} {params : List (Passage Lexeme)}
    {body : List Stmt} (isName : name.kind = .identifier)
    (isOpening : opening.kind = .symbol .leftParen) (named : ∀ p ∈ params, Named p.tokens p.tree)
    (listed : Listed (params.map Passage.tokens) ts) (few : params.length ≤ mostItems)
    (isClosing : closing.kind = .symbol .rightParen)
    (inner : CompletesStmt .block us (.block body)) :
    CompletesStmt .function (name :: opening :: (ts ++ closing :: us))
      (.function (.mk name.toLexeme (params.map Passage.tree) body)) := by
  intro bound rest role size
  obtain ⟨brace, vs, rfl, isBrace, builds⟩ := inner
  have names : BuildsListed (expect .identifier .parameterName) id
      (ts ++ closing :: (brace :: vs ++ rest)).length params := by
    intro p member
    obtain ⟨tokens, tree⟩ := p
    obtain ⟨isParam⟩ := named _ member
    refine ⟨⟨_, _, rfl, by rw [isParam]; nofun⟩, fun rest _ _ => ?_⟩
    rw [← bind_pure (expect .identifier .parameterName)]
    exact leads_expect isParam (builds_pure rfl)
  have list := builds_parenthesized names listed few isClosing (Nat.le_refl _) .tooManyParameters
    .parametersClose
  have inside := builds bound rest (by
    simp only [List.cons_append, List.append_assoc, List.length_cons, List.length_append] at size ⊢
    omega)
  have whole : ts ++ closing :: brace :: vs = (ts ++ [closing]) ++ brace :: vs := by simp
  rw [whole]
  refine leads_expect isName (leads_expect isOpening (Leads.bind list ?_))
  rintro ⟨params', _⟩ ⟨trees, _⟩
  refine leads_expect isBrace (Leads.bindLast inside fun body' same => builds_pure ?_)
  rw [List.map_id] at trees
  rw [← trees]
  exact congrArg Stmt.function ((FunctionDecl.bare_mk _ _ _).trans
    (congrArg (FunctionDecl.mk _ _) (Stmt.block.inj same)))

theorem completes_classDecl {keyword name opening closing : Token} {parent : Option Superclass}
    {methods : List (Passage FunctionDecl)} (isClass : keyword.kind = .keyword .kwClass)
    (isName : name.kind = .identifier) (inherits : Parent ts parent)
    (isOpening : opening.kind = .symbol .leftBrace)
    (derive : ∀ m ∈ methods, StmtDerives true .function m.tokens (.function m.tree))
    (each : ∀ m ∈ methods, CompletesStmt .function m.tokens (.function m.tree))
    (isClosing : closing.kind = .symbol .rightBrace) :
    CompletesStmt .declaration
      (keyword :: name :: (ts ++ opening :: (methods.flatMap Passage.tokens ++ [closing])))
      (.classDecl name.toLexeme parent (methods.map Passage.tree)) := by
  intro bound rest size _
  simp only [List.cons_append, List.append_assoc, List.length_cons, List.length_append,
    List.length_nil] at size
  obtain ⟨bound, rfl⟩ : ∃ n, bound = n + 1 := ⟨bound - 1, by omega⟩
  have found : DeclarationStart.ofKind? keyword.kind = some .classDecl := by rw [isClass]; rfl
  have items : BuildsRun (function bound (Parse.declaration bound) .method) FunctionDecl.bare bound
      methods := by
    intro m member
    obtain ⟨first, us, begins, isIdentifier⟩ := (derive m member).begins
    have isIdentifier : first.kind = .identifier := isIdentifier
    refine ⟨⟨first, us, begins, by rw [isIdentifier]; exact ⟨nofun, nofun⟩⟩, fun rest _ size => ?_⟩
    refine (each m member bound rest .method (Nat.le_succ_of_le size)).imp ?_
    rintro _ ⟨f, rfl, same⟩
    exact ⟨f, rfl, Stmt.function.inj same⟩
  have inside : Builds (untilBrace (function bound (Parse.declaration bound) .method) bound)
      (methods.flatMap Passage.tokens) (closing :: rest)
      fun fs => fs.map FunctionDecl.bare = methods.map Passage.tree := by
    apply builds_untilBrace items isClosing <;>
      simp only [List.length_cons, List.length_append] <;> omega
  have body (parent' : Option Superclass)
      (same : parent'.map (Superclass.relabel .unnumbered) = parent) :
      Builds (do
        let _ ← expect (.symbol .leftBrace) .classOpen
        let methods ← untilBrace (function bound (Parse.declaration bound) .method) bound
        let _ ← expect (.symbol .rightBrace) .classClose
        return Stmt.classDecl name.toLexeme parent' methods)
        (opening :: (methods.flatMap Passage.tokens ++ [closing])) rest
        (·.bare = .classDecl name.toLexeme parent (methods.map Passage.tree)) := by
    refine leads_expect isOpening (Leads.bind inside fun methods' trees => ?_)
    refine leads_expect isClosing (builds_pure ?_)
    rw [← same, ← trees, ← FunctionDecl.relabelEach_eq_map]
    rfl
  refine leads_take found (leads_expect isName ?_)
  have above : Builds superclass ts
      (opening :: (methods.flatMap Passage.tokens ++ [closing]) ++ rest)
      (·.map (Superclass.relabel .unnumbered) = parent) := by
    cases inherits with
    | none =>
      refine leads_refuse ?_ (builds_pure rfl)
      rintro _ ⟨⟩
      rw [isOpening]
      nofun
    | some isSign isParent =>
      refine leads_accept isSign (leads_expect isParent ?_)
      exact leads_freshId fun id => builds_pure rfl
  exact Leads.bind above body

theorem completes_funDecl {keyword : Token} (isFun : keyword.kind = .keyword .kwFun)
    (inner : CompletesStmt .function ts s) : CompletesStmt .declaration (keyword :: ts) s := by
  intro bound rest size _
  obtain ⟨bound, rfl⟩ : ∃ n, bound = n + 1 := ⟨bound - 1, by simp at size; omega⟩
  have found : DeclarationStart.ofKind? keyword.kind = some .function := by rw [isFun]; rfl
  refine leads_take found (Leads.bindLast (inner bound rest .function (Nat.le_of_succ_le size)) ?_)
  exact fun f same => builds_pure same

theorem completes_varDecl (derives : VarDecl ts s) : CompletesStmt .declaration ts s := by
  intro bound rest size _
  obtain ⟨keyword, us, rfl, isVar, builds⟩ := builds_varDeclaration derives
  obtain ⟨bound, rfl⟩ : ∃ n, bound = n + 1 := ⟨bound - 1, by simp at size; omega⟩
  have found : DeclarationStart.ofKind? keyword.kind = some .var := by rw [isVar]; rfl
  exact leads_take found (builds bound rest (Nat.le_of_succ_le_succ size))

theorem completes_statement {isOpen : Bool} (derives : StmtDerives true (.statement isOpen) ts s)
    (inner : CompletesStmt (.statement isOpen) ts s) : CompletesStmt .declaration ts s := by
  intro bound rest size noElse
  have read := inner bound rest size fun _ => noElse
  obtain ⟨first, us, rfl, _, notClass, notFun, notVar⟩ := derives.begins
  obtain ⟨bound, rfl⟩ : ∃ n, bound = n + 1 := ⟨bound - 1, by simp at size; omega⟩
  refine leads_leave ?_ read
  rintro _ ⟨⟩
  simp only [DeclarationStart.ofKind?]

end Parse

/-- Every derivation with each `else` at the nearest `if` is read as such. -/
theorem Grammar.StmtDerives.completes {phrase : StmtPhrase} {ts : List Token} {s : Stmt}
    (derives : StmtDerives true phrase ts s) : Parse.CompletesStmt phrase ts s := by
  induction derives with
  | classDecl isClass isName inherits isOpening each isClosing ih =>
    exact Parse.completes_classDecl isClass isName inherits isOpening each ih isClosing
  | funDecl isFun _ ih => exact Parse.completes_funDecl isFun ih
  | varDecl derives => exact Parse.completes_varDecl derives
  | statement derives ih => exact Parse.completes_statement derives ih
  | function isName isOpening named listed few isClosing _ ih =>
    exact Parse.completes_function isName isOpening named listed few isClosing ih
  | exprStmt derives => exact Parse.completes_exprStmt derives
  | forStmt isFor isOpening clause guarded isSemicolon stepped isClosing _ ih =>
    exact Parse.completes_forStmt isFor isOpening clause guarded isSemicolon stepped isClosing ih
  | ifThen isIf isOpening condition isClosing _ ih =>
    exact Parse.completes_ifThen isIf isOpening condition isClosing ih
  | ifElse isIf isOpening condition isClosing _ closed isElse _ ih ih' =>
    cases closed rfl
    exact Parse.completes_ifElse isIf isOpening condition isClosing ih isElse ih'
  | printStmt isPrint value isSemicolon =>
    exact Parse.completes_printStmt isPrint value isSemicolon
  | returnStmt isReturn value isSemicolon =>
    exact Parse.completes_returnStmt isReturn value isSemicolon
  | whileStmt isWhile isOpening condition isClosing _ ih =>
    exact Parse.completes_whileStmt isWhile isOpening condition isClosing ih
  | blockStmt _ ih => exact Parse.completes_blockStmt ih
  | block isOpening each isClosing ih => exact Parse.completes_block isOpening each ih isClosing

/-- Whatever the grammar derives is parsed without errors. -/
theorem parseFrom_complete {bound : Nat} {c : Cursor} {tree : List Stmt}
    (size : c.rest.length ≤ bound) (derives : Program true c.rest tree) :
    (parseFrom bound c).errors = [] ∧
      Stmt.relabelEach .unnumbered (parseFrom bound c).statements = tree := by
  generalize all : c.rest = ts at derives size
  obtain @⟨parts, each⟩ := derives
  induction parts generalizing bound c with
  | nil =>
    rw [parseFrom_of_rest_eq_nil all]
    exact ⟨rfl, rfl⟩
  | cons part others ih =>
    have first := each part List.mem_cons_self
    have some := first.length_pos
    have later := fun p member => each p (List.mem_cons_of_mem part member)
    have noElse : Parse.NoElse (others.flatMap Passage.tokens) := by
      cases others with
      | nil => nofun
      | cons next others =>
        obtain ⟨head, us, begins, heads⟩ := (later next List.mem_cons_self).begins
        rw [List.flatMap_cons, begins]
        rintro _ ⟨⟩
        exact heads.2
    rw [List.flatMap_cons] at all size
    rw [List.length_append] at size
    obtain ⟨bound, rfl⟩ : ∃ n, bound = n + 1 := ⟨bound - 1, by omega⟩
    obtain ⟨_, c', ok, left, s, rfl, same⟩ :=
      first.completes (bound + 1) _ (by rw [List.length_append]; omega) noElse c all
    have more : c.rest ≠ [] := by
      rw [all]
      exact List.append_ne_nil_of_left_ne_nil (List.ne_nil_of_length_pos some) _
    have shorter : (others.flatMap Passage.tokens).length ≤ bound := by omega
    obtain ⟨clean, trees⟩ := ih later left shorter
    rw [parseFrom_of_ok more ok]
    refine ⟨clean, ?_⟩
    rw [List.map_cons, ← same, ← trees]
    rfl

theorem Parsed.result_eq_ok {p : Parsed} {program : List Stmt} :
    p.result = .ok program ↔ p.errors = [] ∧ p.statements = program := by
  unfold Parsed.result
  cases p.errors <;> simp

/-- What is parsed as a program is one of the grammar, and the other way round. -/
theorem result_eq_ok_iff {tokens : List Token} {nextId : ExprId} {tree : List Stmt} :
    (∃ program, (parseTokens tokens nextId).result = .ok program ∧
      Stmt.relabelEach .unnumbered program = tree) ↔
    Program true (tokens.takeWhile (·.kind ≠ .endOfInput)) tree := by
  constructor
  · rintro ⟨program, ok, rfl⟩
    obtain ⟨clean, rfl⟩ := Parsed.result_eq_ok.mp ok
    exact parseFrom_sound (Nat.le_refl _) clean
  · intro derives
    have ⟨clean, same⟩ := parseFrom_complete (c := .ofTokens tokens nextId) (Nat.le_refl _) derives
    exact ⟨_, Parsed.result_eq_ok.mpr ⟨clean, rfl⟩, same⟩

theorem parseExpression_eq_ok {tokens : List Token} {nextId : ExprId} {e : Expr} :
    parseExpression tokens nextId = .ok e ↔
      let c := Cursor.ofTokens tokens nextId
      ∃ c', Parse.expression c.rest.length c = .ok e c' ∧ c'.rest = [] := by
  simp only [parseExpression, Parse.soleExpression, Bind.bind, EStateM.bind]
  generalize Cursor.ofTokens tokens nextId = c
  cases Parse.expression c.rest.length c with
  | error cause c' => simp
  | ok e' c' =>
    cases here : c'.rest <;>
      simp [Parse.peek, Parse.fail, here, Pure.pure, EStateM.pure, and_assoc, and_comm]

/-- What is parsed as one expression is one of the grammar, and the other way round. -/
theorem parseExpression_eq_ok_iff {tokens : List Token} {nextId : ExprId} {tree : Expr} :
    (∃ e, parseExpression tokens nextId = .ok e ∧ e.bare = tree) ↔
    Derives .expression (tokens.takeWhile (·.kind ≠ .endOfInput)) tree := by
  have start : (Cursor.ofTokens tokens nextId).rest = tokens.takeWhile (·.kind ≠ .endOfInput) := rfl
  constructor
  · rintro ⟨e, ok, rfl⟩
    obtain ⟨c', read, finished⟩ := parseExpression_eq_ok.mp ok
    obtain ⟨ts, all, derives⟩ := Parse.reads_expression _ _ e c' read
    rw [finished, List.append_nil] at all
    rwa [← start, all]
  · intro derives
    have builds := derives.completes _ [] (Nat.le_refl _) Parse.follows_nil
    rw [List.append_nil] at builds
    obtain ⟨_, c', read, finished, e, rfl, same⟩ :=
      builds (.ofTokens tokens nextId) (List.append_nil _).symm
    exact ⟨e, parseExpression_eq_ok.mpr ⟨c', read, finished⟩, same⟩

/-- The parser accepts the token lists of the grammar. An accepted list has exactly one derivation
in which each `else` belongs to the nearest `if`, and its tree is the program but for the numbers of
the nodes. A list that is an expression by itself has only one derivation anyway. -/
theorem parser_accepts_grammar (tokens : List Token) (nextId : ExprId) :
    let ts := tokens.takeWhile (·.kind ≠ .endOfInput)
    ((∃ program, (parseTokens tokens nextId).result = .ok program) ↔
      ∃ tree, Program false ts tree) ∧
    (∀ program, (parseTokens tokens nextId).result = .ok program →
      ∀ tree, Program true ts tree ↔ tree = Stmt.relabelEach .unnumbered program) ∧
    ((∃ e, parseExpression tokens nextId = .ok e) ↔ ∃ tree, Derives .expression ts tree) ∧
    (∀ e, parseExpression tokens nextId = .ok e →
      ∀ tree, Derives .expression ts tree ↔ tree = e.relabel .unnumbered) := by
  refine ⟨⟨?_, ?_⟩, ?_, ⟨?_, ?_⟩, ?_⟩
  · rintro ⟨program, ok⟩
    exact ⟨_, (result_eq_ok_iff.mp ⟨program, ok, rfl⟩).anywhere⟩
  · rintro ⟨tree, derives⟩
    obtain ⟨tree', nearest⟩ := derives.exists_nearest
    obtain ⟨program, ok, _⟩ := result_eq_ok_iff.mpr nearest
    exact ⟨program, ok⟩
  · intro program ok tree
    rw [← result_eq_ok_iff, ok]
    simp [eq_comm]
  · rintro ⟨e, ok⟩
    exact ⟨_, parseExpression_eq_ok_iff.mp ⟨e, ok, rfl⟩⟩
  · rintro ⟨tree, derives⟩
    obtain ⟨e, ok, _⟩ := parseExpression_eq_ok_iff.mpr derives
    exact ⟨e, ok⟩
  · intro e ok tree
    rw [← parseExpression_eq_ok_iff, ok]
    simp [eq_comm]

/-- The tokens of `if (a) if (b) c; else d;`. -/
def danglingElse : List Token :=
  [⟨⟨"if", 1⟩, .keyword .kwIf⟩, ⟨⟨"(", 1⟩, .symbol .leftParen⟩, ⟨⟨"a", 1⟩, .identifier⟩,
    ⟨⟨")", 1⟩, .symbol .rightParen⟩, ⟨⟨"if", 1⟩, .keyword .kwIf⟩, ⟨⟨"(", 1⟩, .symbol .leftParen⟩,
    ⟨⟨"b", 1⟩, .identifier⟩, ⟨⟨")", 1⟩, .symbol .rightParen⟩, ⟨⟨"c", 1⟩, .identifier⟩,
    ⟨⟨";", 1⟩, .symbol .semicolon⟩, ⟨⟨"else", 1⟩, .keyword .kwElse⟩, ⟨⟨"d", 1⟩, .identifier⟩,
    ⟨⟨";", 1⟩, .symbol .semicolon⟩]

theorem danglingElse_accepted :
    (parseTokens danglingElse 0).result =
        .ok [.ifThen (.var 0 ⟨"a", 1⟩) (.ifElse (.var 1 ⟨"b", 1⟩) (.expression (.var 2 ⟨"c", 1⟩))
          (.expression (.var 3 ⟨"d", 1⟩)))] ∧
      Program true danglingElse [.ifThen (.var 0 ⟨"a", 1⟩) (.ifElse (.var 0 ⟨"b", 1⟩)
        (.expression (.var 0 ⟨"c", 1⟩)) (.expression (.var 0 ⟨"d", 1⟩)))] ∧
      ¬ Program true danglingElse [.ifElse (.var 0 ⟨"a", 1⟩) (.ifThen (.var 0 ⟨"b", 1⟩)
        (.expression (.var 0 ⟨"c", 1⟩))) (.expression (.var 0 ⟨"d", 1⟩))] := by
  have parsed : (parseTokens danglingElse 0).result =
      .ok [.ifThen (.var 0 ⟨"a", 1⟩) (.ifElse (.var 1 ⟨"b", 1⟩) (.expression (.var 2 ⟨"c", 1⟩))
        (.expression (.var 3 ⟨"d", 1⟩)))] := by cbv
  have only := (parser_accepts_grammar danglingElse 0).2.1 _ parsed
  refine ⟨parsed, (only _).mpr rfl, fun derives => ?_⟩
  have other := (only _).mp derives
  simp [Stmt.relabelEach, Stmt.relabel] at other

end ScopeScript
