import ScopeScript.Proofs.Scope.Standing
import ScopeScript.Scope.Resolve

/-! The findings of a program are told by its marks one after the other. -/
namespace ScopeScript

variable {known : List String} {before : List Mark} {kinds : List ScopeKind} {c : Context}

/-! Expressions. -/

/-- An expression is walked over in a context that stays the same. -/
structure Expr.Walks (known : List String) (before : List Mark) (kinds : List ScopeKind)
    (c : Context) (text : List Mark) (findings : List Finding) : Prop where
  walk : Walk known before text findings
  stands : c.Stands known (before ++ text) kinds

namespace Expr.Walks

theorem append {text rest : List Mark} {findings more : List Finding}
    (first : Walks known before kinds c text findings)
    (second : Walks known (before ++ text) kinds c rest more) :
    Walks known before kinds c (text ++ rest) (findings ++ more) :=
  ⟨first.walk.append second.walk, List.append_assoc _ _ _ ▸ second.stands⟩

theorem nil (stands : c.Stands known before kinds) : Walks known before kinds c [] [] :=
  ⟨.done _, by simpa using stands⟩

theorem use {mark : Mark} {findings : List Finding} (stands : c.Stands known before kinds)
    (told : Tells known before mark findings) (use : mark.use?.isSome = true) :
    Walks known before kinds c [mark] findings :=
  ⟨.single told, stands.use use⟩

end Expr.Walks

mutual

theorem Expr.walks : ∀ (e : Expr) {before : List Mark}, c.Stands known before kinds →
    (∀ mark ∈ e.marks, mark.Spelled) → Expr.Walks known before kinds c e.marks (e.findings c)
  | .literal _ _, _, stands, _ => .nil stands
  | .group _ inner, _, stands, spelled => inner.walks stands spelled
  | .var id name, _, stands, _ => .use stands (stands.tells_uses id name) rfl
  | .this id keyword, _, stands, spelled =>
    .use stands (stands.tells_this id (spelled _ List.mem_cons_self)) rfl
  | .assign id name value, _, stands, spelled => by
    have inner := value.walks stands (List.forall_mem_append.mp spelled).1
    exact inner.append (.use inner.stands (inner.stands.tells_uses id name) rfl)
  | .unary _ _ _ operand, _, stands, spelled => operand.walks stands spelled
  | .binary _ _ _ left right, _, stands, spelled | .logical _ _ _ left right, _, stands, spelled
  | .set _ left _ right, _, stands, spelled => by
    obtain ⟨first, second⟩ := List.forall_mem_append.mp spelled
    have inner := left.walks stands first
    exact inner.append (right.walks inner.stands second)
  | .call _ callee arguments _, _, stands, spelled => by
    obtain ⟨first, second⟩ := List.forall_mem_append.mp spelled
    have inner := callee.walks stands first
    exact inner.append (Expr.walksEach arguments inner.stands second)
  | .get _ object _, _, stands, spelled => object.walks stands spelled

theorem Expr.walksEach : ∀ (es : List Expr) {before : List Mark}, c.Stands known before kinds →
    (∀ mark ∈ Expr.marksEach es, mark.Spelled) →
      Expr.Walks known before kinds c (Expr.marksEach es) (Expr.findingsEach c es)
  | [], _, stands, _ => .nil stands
  | e :: rest, _, stands, spelled => by
    obtain ⟨first, second⟩ := List.forall_mem_append.mp spelled
    have inner := e.walks stands first
    exact inner.append (Expr.walksEach rest inner.stands second)

end

/-! Statements. -/

/-- A statement is walked over and leaves another context behind. -/
structure Stmt.Walks (known : List String) (before : List Mark) (kinds : List ScopeKind)
    (text : List Mark) (findings : List Finding) (next : Context) : Prop where
  walk : Walk known before text findings
  ready : next.Idle known (before ++ text) kinds

namespace Stmt.Walks

theorem append {text rest : List Mark} {findings more : List Finding} {inner : List ScopeKind}
    {next last : Context} (first : Walks known before inner text findings next)
    (second : Walks known (before ++ text) kinds rest more last) :
    Walks known before kinds (text ++ rest) (findings ++ more) last :=
  ⟨first.walk.append second.walk, List.append_assoc _ _ _ ▸ second.ready⟩

theorem nil (ready : c.Idle known before kinds) : Walks known before kinds [] [] c :=
  ⟨.done _, by simpa using ready⟩

/-- Behind the first mark comes the rest. -/
theorem cons {mark : Mark} {rest : List Mark} {findings more : List Finding} {last : Context}
    (told : Tells known before mark findings)
    (second : Walks known (before ++ [mark]) kinds rest more last) :
    Walks known before kinds (mark :: rest) (findings ++ more) last :=
  ⟨.step told second.walk, by simpa using second.ready⟩

/-- A declaration that is complete at once. -/
theorem declared (ready : c.Idle known before kinds) (kind : DeclarationKind) {name : Lexeme}
    (noVariable : kind ≠ .ofVariable) (spelled : name.text ≠ thisName) :
    Walks known before kinds (Mark.declared kind name) (c.scopes.duplicate name)
      (c.declare name.text) := by
  have begun : c.Idle known (before ++ [.declares kind name]) kinds :=
    ready.pass _ rfl (by simp [noVariable]) nofun fun _ => rfl
  have complete : Walks known (before ++ [.declares kind name]) kinds [.completes name.text] []
      (c.declare name.text) := ⟨.single (tells_completes _), begun.declare spelled⟩
  simpa [Mark.declared] using complete.cons (ready.tells_declares kind name)

theorem params (ready : c.Idle known before kinds) {params : List Lexeme}
    (spelled : ∀ p ∈ params, p.text ≠ thisName) :
    Walks known before kinds (params.flatMap (Mark.declared .ofParameter))
      (c.scopes.duplicateParams params)
      { c with scopes := c.scopes.declareParams params } := by
  induction params generalizing before c with
  | nil => exact .nil ready
  | cons p rest ih =>
    obtain ⟨first, others⟩ := List.forall_mem_cons.mp spelled
    have one := declared ready .ofParameter nofun first
    exact one.append (ih one.ready others)

theorem superclass (ready : c.Idle known before kinds) (name : Lexeme)
    (superclass : Option Superclass) :
    Walks known before kinds (Superclass.marks name superclass)
      (match superclass with
      | none => []
      | some s =>
        (if s.name.text = name.text then [.breachAt .ownSuperclass s.name] else []) ++
          c.reference s.id s.name) c := by
  cases superclass with
  | none => exact .nil ready
  | some s =>
    have passed := ready.pass (.inherits name s.name) rfl nofun nofun fun _ => rfl
    have used : Walks known (before ++ [.inherits name s.name]) kinds [.uses s.id s.name]
        (c.reference s.id s.name) c :=
      ⟨.single (passed.tells_uses s.id s.name), passed.use rfl, ready.idle⟩
    exact used.cons (Context.Stands.tells_inherits name s.name)

/-- A whole scope with what is inside. -/
theorem scope {text : List Mark} {kind : ScopeKind} {findings : List Finding}
    {inner : Context} {names : List String} (ready : c.Idle known before kinds)
    (inside : Walks known before (kind :: kinds) text findings inner)
    (shape : inner.scopes = c.scopes.enter names) :
    Walks known before kinds (text ++ [.closes]) findings c := by
  refine ⟨?_, ?_⟩
  · simpa using inside.walk.append (.single tells_closes)
  · rw [← List.append_assoc]
    exact ready.close inside.ready shape

end Stmt.Walks

theorem Scopes.declareParams_enter (s : Scopes) (names : List String) (params : List Lexeme) :
    ∃ more, (s.enter names).declareParams params = s.enter more := by
  induction params generalizing names with
  | nil => exact ⟨names, rfl⟩
  | cons p rest ih => exact ih (p.text :: names)

/-- Declarations in a scope do not reach outside of it. -/
theorem Scopes.after_enter (s : Scopes) (names : List String) (statement : Stmt) :
    ∃ more, (s.enter names).after statement = s.enter more := by
  cases statement with
  | var name _ | classDecl name _ _ => exact ⟨name.text :: names, rfl⟩
  | function declaration => exact ⟨declaration.name.text :: names, rfl⟩
  | _ => exact ⟨names, rfl⟩

theorem Context.afterEach_enter {s : Scopes} {names : List String} (body : List Stmt)
    {c : Context} (shape : c.scopes = s.enter names) :
    ∃ more, (body.foldl Context.after c).scopes = s.enter more := by
  induction body generalizing c names with
  | nil => exact ⟨names, shape⟩
  | cons first rest ih =>
    obtain ⟨more, next⟩ := s.after_enter names first
    rw [← shape] at next
    exact ih next

theorem Context.after_of_not_declaration {s : Stmt} (plain : s.isDeclaration = false)
    (c : Context) : c.after s = c := by
  cases s <;> first | rfl | nomatch plain

/-- The findings of an optional part. -/
def findingsOptional (c : Context) : Option Expr → List Finding
  | none => []
  | some e => e.findings c

theorem walksOptional (stands : c.Stands known before kinds) {value : Option Expr}
    (spelled : ∀ mark ∈ marksOptional value, mark.Spelled) :
    Expr.Walks known before kinds c (marksOptional value) (findingsOptional c value) := by
  cases value with
  | none => exact .nil stands
  | some e => exact e.walks stands spelled

theorem Expr.Walks.toStmt {text : List Mark} {findings : List Finding}
    (walks : Expr.Walks known before kinds c text findings) (idle : c.pending = none) :
    Stmt.Walks known before kinds text findings c :=
  ⟨walks.walk, walks.stands, idle⟩

mutual

theorem Stmt.walks : ∀ (s : Stmt) {before : List Mark} {kinds : List ScopeKind} {c : Context},
    c.Idle known before kinds → s.Ranked → (∀ mark ∈ s.marks, mark.Spelled) →
      Stmt.Walks known before kinds s.marks (s.findings c) (c.after s)
  | .expression value, _, _, _, ready, _, spelled | .print value, _, _, _, ready, _, spelled =>
    (value.walks ready.toStands spelled).toStmt ready.idle
  | .var name initial, before, kinds, c, ready, _, spelled => by
    obtain ⟨written, inside⟩ := List.forall_mem_cons.mp spelled
    have value := walksOptional (ready.initialValueOf name)
      (List.forall_mem_append.mp inside).1
    have complete := value.stands.declare (x := name.text) written
    have same : { (c.initialValueOf name.text).declare name.text with pending := none } =
        c.declare name.text := by
      simp [Context.declare, Context.initialValueOf, ready.idle]
    rw [same] at complete
    have rest : Stmt.Walks known (before ++ [.declares .ofVariable name]) kinds
        (marksOptional initial ++ [.completes name.text]) _ (c.declare name.text) :=
      ⟨value.walk.append (.single (tells_completes _)),
        ⟨by rwa [← List.append_assoc], ready.idle⟩⟩
    have whole := rest.cons (ready.tells_declares .ofVariable name)
    rwa [List.append_nil] at whole
  | .block body, _, _, c, ready, ranked, spelled => by
    obtain ⟨_, inside⟩ := List.forall_mem_cons.mp spelled
    have inner := (Stmt.walksEach body ready.enter ranked (List.forall_mem_append.mp inside).1).cons
      (tells_opens .block)
    obtain ⟨names, shape⟩ := Context.afterEach_enter body (c := c.enter []) rfl
    exact inner.scope ready shape
  | .ifThen condition body, _, _, c, ready, ranked, spelled
  | .whileLoop condition body, _, _, c, ready, ranked, spelled => by
    obtain ⟨first, second⟩ := List.forall_mem_append.mp spelled
    have test := (condition.walks ready.toStands first).toStmt ready.idle
    have branch := body.walks test.ready ranked.2 second
    rw [Context.after_of_not_declaration ranked.1] at branch
    exact test.append branch
  | .ifElse condition yes no, _, _, c, ready, ranked, spelled => by
    obtain ⟨first, others⟩ := List.forall_mem_append.mp spelled
    obtain ⟨second, third⟩ := List.forall_mem_append.mp others
    have test := (condition.walks ready.toStands first).toStmt ready.idle
    have branch := yes.walks test.ready ranked.1.2 second
    rw [Context.after_of_not_declaration ranked.1.1] at branch
    have other := no.walks branch.ready ranked.2.2 third
    rw [Context.after_of_not_declaration ranked.2.1] at other
    have whole := test.append (branch.append other)
    rwa [← List.append_assoc (condition.findings c)] at whole
  | .function declaration, _, _, c, ready, ranked, spelled => by
    obtain ⟨first, second⟩ := List.forall_mem_append.mp spelled
    have named := Stmt.Walks.declared ready .ofFunction nofun (first _ List.mem_cons_self)
    exact named.append (declaration.walks named.ready ranked second)
  | .returns keyword value, _, _, c, ready, _, spelled => by
    obtain ⟨_, inside⟩ := List.forall_mem_cons.mp spelled
    have passed := ready.pass (.returns keyword) rfl nofun nofun fun _ => rfl
    have result := (walksOptional passed.toStands inside).toStmt ready.idle
    exact result.cons (ready.tells_returns keyword)
  | .classDecl name superclass methods, before, kinds, c, ready, ranked, spelled => by
    have written (mark : Mark) (member : mark ∈ FunctionDecl.marksEach methods) : mark.Spelled :=
      spelled mark (by simp [Stmt.marks, member])
    have named := Stmt.Walks.declared ready .ofClass nofun (spelled _ List.mem_cons_self)
    have parent := Stmt.Walks.superclass named.ready name superclass
    have entered : Stmt.Walks known _ (.methods :: kinds) [.opens .methods, .completes thisName]
        [] (c.declare name.text).classBody :=
      ⟨.step (tells_opens .methods) (.single (tells_completes thisName)), parent.ready.enterClass⟩
    have inner := entered.append
      (FunctionDecl.walksEach methods entered.ready ranked written)
    have whole := named.append (parent.append (inner.scope parent.ready rfl))
    rw [← List.append_assoc (c.scopes.duplicate name)] at whole
    exact whole

theorem Stmt.walksEach : ∀ (body : List Stmt) {before : List Mark} {kinds : List ScopeKind}
    {c : Context}, c.Idle known before kinds → Stmt.RankedEach body →
      (∀ mark ∈ Stmt.marksEach body, mark.Spelled) →
      Stmt.Walks known before kinds (Stmt.marksEach body) (Stmt.findingsEach c body)
        (body.foldl Context.after c)
  | [], _, _, _, ready, _, _ => .nil ready
  | s :: rest, _, _, _, ready, ranked, spelled => by
    obtain ⟨first, second⟩ := List.forall_mem_append.mp spelled
    have one := s.walks ready ranked.1 first
    exact one.append (Stmt.walksEach rest one.ready ranked.2 second)

theorem FunctionDecl.walks : ∀ (f : FunctionDecl) {before : List Mark} {kinds : List ScopeKind}
    {c : Context}, c.Idle known before kinds → f.Ranked → (∀ mark ∈ f.marks, mark.Spelled) →
      Stmt.Walks known before kinds f.marks (f.findings c) c
  | .mk _ params body, before, kinds, c, ready, ranked, spelled => by
    obtain ⟨_, inside⟩ := List.forall_mem_cons.mp spelled
    obtain ⟨first, others⟩ := List.forall_mem_append.mp inside
    have written (p : Lexeme) (member : p ∈ params) : p.text ≠ thisName :=
      first (.declares .ofParameter p)
        (List.mem_flatMap.mpr ⟨p, member, List.mem_cons_self⟩)
    have named := Stmt.Walks.params ready.enterFunction written
    have inner := named.append
      (Stmt.walksEach body named.ready ranked (List.forall_mem_append.mp others).1)
    obtain ⟨names, opened⟩ := c.scopes.declareParams_enter [] params
    obtain ⟨more, shape⟩ := Context.afterEach_enter body (c := c.functionBody params) opened
    have whole := (inner.cons (tells_opens .function)).scope ready shape
    rw [List.cons_append, List.append_assoc] at whole
    exact whole

theorem FunctionDecl.walksEach : ∀ (fs : List FunctionDecl) {before : List Mark}
    {kinds : List ScopeKind} {c : Context}, c.Idle known before kinds →
      FunctionDecl.RankedEach fs → (∀ mark ∈ FunctionDecl.marksEach fs, mark.Spelled) →
      Stmt.Walks known before kinds (FunctionDecl.marksEach fs) (FunctionDecl.findingsEach c fs) c
  | [], _, _, _, ready, _, _ => .nil ready
  | f :: rest, _, _, _, ready, ranked, spelled => by
    obtain ⟨first, second⟩ := List.forall_mem_append.mp spelled
    have one := f.walks ready ranked.1 first
    exact one.append (FunctionDecl.walksEach rest one.ready ranked.2 second)

end

/-- The findings of a program are those of its marks. -/
theorem programFindings_walk {program : List Stmt} (known : List String)
    (ranked : Stmt.RankedEach program) (spelled : ∀ mark ∈ Stmt.marksEach program, mark.Spelled) :
    Walk known [] (Stmt.marksEach program) (programFindings known program) :=
  (Stmt.walksEach program ⟨Context.Stands.start known, rfl⟩ ranked spelled).walk

end ScopeScript
