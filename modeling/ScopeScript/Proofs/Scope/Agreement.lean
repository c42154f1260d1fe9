import Mathlib.Data.List.Forall2
import ScopeScript.Proofs.Scope.Relabel
import ScopeScript.Proofs.Scope.Reuse
import ScopeScript.Proofs.Scope.Walk

/-! The walk with a state finds what the walk over contexts finds. Between statements every
declaration is complete, so a scope is told by its names. In the initial value of a variable the
state has a declaration that has begun, where the context has a pending name. -/
namespace ScopeScript

/-- At the top level nothing is local. -/
theorem Scopes.foldl_after_top (known : List String) (program : List Stmt) :
    program.foldl Scopes.after ⟨[], known⟩ = ⟨[], globalsAfter known program⟩ := by
  unfold globalsAfter
  induction program generalizing known with
  | nil => rfl
  | cons s rest ih =>
    obtain ⟨names, top⟩ : ∃ names, Scopes.after ⟨[], known⟩ s = ⟨[], names⟩ := by
      cases s <;> exact ⟨_, rfl⟩
    rw [List.foldl_cons, top, ih]

namespace Resolver

variable {r walked : Resolver} {c next : Context} {findings more : List Finding}

/-- A table of declarations that are complete. -/
def Holds (t : Table Bool) (names : List String) : Prop :=
  ∀ x, t.get? x = if x ∈ names then some true else none

namespace Holds
variable {t : Table Bool} {names : List String}

theorem empty : Holds {} [] := fun _ => rfl

theorem insert (holds : Holds t names) (name : String) :
    Holds (t.insert name true) (name :: names) := by
  intro x
  rw [Table.get?_insert, holds x]
  by_cases same : name = x
  · simp [same]
  · simp [same, Ne.symm same]

end Holds

/-- Between statements. -/
structure Fits (r : Resolver) (c : Context) : Prop where
  scopes : List.Forall₂ Holds r.scopes c.scopes.locals
  globals : Holds r.globals c.scopes.globals
  inFunction : r.functionKind = .outside ↔ c.inFunction = false
  inClass : r.classKind = .outside ↔ c.inClass = false
  idle : c.pending = none

/-- What uses of names depend on. -/
structure Sees (r : Resolver) (c : Context) : Prop where
  distance : ∀ x, r.distance? x = c.scopes.distance? x
  begun : ∀ x, r.distance? x = none → ((r.begun x = true ∧ r.globals.get? x ≠ some true) ↔
    c.pending = some x ∧ x ∉ c.scopes.globals)
  inClass : r.classKind = .outside ↔ c.inClass = false

theorem distance?_eq {scopes : List (Table Bool)} {locals : List (List String)}
    (hold : List.Forall₂ Holds scopes locals) (x : String) :
    scopes.findIdx? (·.get? x == some true) = locals.findIdx? (·.contains x) := by
  induction hold with
  | nil => rfl
  | cons first _ ih =>
    rw [List.findIdx?_cons, List.findIdx?_cons, ih, first x]
    split
    · next member => simp [member]
    · next missing => simp [missing]

theorem not_begun {scopes : List (Table Bool)} {locals : List (List String)}
    (hold : List.Forall₂ Holds scopes locals) (x : String) :
    scopes.any (·.get? x == some false) = false := by
  induction hold with
  | nil => rfl
  | cons first _ ih =>
    rw [List.any_cons, ih, first x]
    split <;> rfl

theorem Fits.sees (fits : Fits r c) : Sees r c where
  distance := distance?_eq fits.scopes
  begun x _ := by
    rw [begun, not_begun fits.scopes, fits.globals x, fits.idle]
    split <;> simp
  inClass := fits.inClass

/-- A declaration of a variable has begun. If its name was there it stays visible. -/
theorem Holds.beginIn {t : Table Bool} {names : List String} (holds : Holds t names) (x y : String) :
    (beginIn t x).get? y = if y ∈ names then some true else if x = y then some false else none := by
  rw [get?_beginIn, holds x, holds y]
  by_cases same : x = y
  · subst same
    by_cases member : x ∈ names <;> simp [member]
  · simp [same]

theorem declare_cons {scope : Table Bool} {outer : List (Table Bool)} (name : Lexeme)
    (inside : r.scopes = scope :: outer) :
    (r.declare name).scopes = beginIn scope name.text :: outer ∧
      (r.declare name).globals = r.globals ∧ (r.declare name).classKind = r.classKind := by
  unfold declare beginIn
  rw [inside]
  dsimp only
  split
  · exact ⟨inside, rfl, rfl⟩
  · exact ⟨rfl, rfl, rfl⟩

theorem Fits.initialValue (fits : Fits r c) (name : Lexeme) :
    Sees (r.declare name) (c.initialValueOf name.text) := by
  obtain ⟨⟨locals, known⟩, _, _, _⟩ := c
  obtain ⟨hold, complete, -, inClass, -⟩ := fits
  cases shape : r.scopes with
  | nil =>
    cases List.forall₂_nil_left_iff.mp (shape ▸ hold)
    have begun : r.declare name = { r with globals := beginIn r.globals name.text } := by
      rw [declare, shape]
    rw [begun]
    refine ⟨fun _ => by rw [distance?, shape]; rfl, fun x _ => ?_, inClass⟩
    simp only [Resolver.begun, Context.initialValueOf, shape, complete.beginIn]
    by_cases member : x ∈ known <;> simp [member]
  | cons scope outer =>
    obtain ⟨names, others, here, rest, rfl⟩ := List.forall₂_cons_left_iff.mp (shape ▸ hold)
    obtain ⟨scopes, globals, kind⟩ := declare_cons name shape
    have distance (x : String) : (r.declare name).distance? x =
        Scopes.distance? ⟨names :: others, known⟩ x := by
      rw [distance?, scopes, Scopes.distance?, List.findIdx?_cons, List.findIdx?_cons,
        distance?_eq rest, here.beginIn]
      by_cases member : x ∈ names <;> simp [member]
    refine ⟨distance, fun x hidden => ?_, by rw [kind]; exact inClass⟩
    have outside : x ∉ names := by
      intro member
      rw [distance x, Scopes.distance?, List.findIdx?_cons] at hidden
      simp [member] at hidden
    rw [Resolver.begun, scopes, globals, List.any_cons, not_begun rest, here.beginIn, complete x]
    by_cases member : x ∈ known <;> simp [member, outside, Context.initialValueOf]

/-! Expressions. -/

/-- What was found is collected. -/
def add (findings : List Finding) (r : Resolver) : Resolver :=
  { r with
    locals := r.locals ++ findings.filterMap Finding.entry?
    errors := r.errors ++ findings.filterMap Finding.error? }

theorem add_nil (r : Resolver) : r.add [] = r := by simp [add]

theorem add_append (r : Resolver) (findings more : List Finding) :
    r.add (findings ++ more) = (r.add findings).add more := by simp [add]

theorem Sees.add (sees : Sees r c) (findings : List Finding) : Sees (r.add findings) c :=
  ⟨sees.distance, sees.begun, sees.inClass⟩

theorem Sees.reference (sees : Sees r c) (id : ExprId) (name : Lexeme) :
    r.reference id name = r.add (c.reference id name) := by
  unfold Resolver.reference Context.reference
  rw [← sees.distance]
  cases found : r.distance? name.text with
  | some distance => simp [Resolver.add, Finding.entry?, Finding.error?]
  | none =>
    simp only [sees.begun _ found]
    split
    · simp [Resolver.add, error, Finding.breachAt, Finding.entry?, Finding.error?]
    · rw [add_nil]

mutual

theorem Sees.expression : ∀ (e : Expr) {r : Resolver}, Sees r c →
    expression e r = r.add (e.findings c)
  | .literal _ _, r, _ => (add_nil r).symm
  | .group _ inner, _, sees | .unary _ _ _ inner, _, sees | .get _ inner _, _, sees =>
    Sees.expression inner sees
  | .var id name, _, sees => sees.reference id name
  | .this id keyword, r, sees => by
    rw [Resolver.expression, Resolver.this, Expr.findings, sees.reference]
    by_cases outside : c.inClass = false
    · rw [if_pos (sees.inClass.mpr outside), outside]
      simp [Resolver.add, error, Finding.breachAt, Finding.entry?, Finding.error?]
    · rw [if_neg (mt sees.inClass.mp outside), if_pos (by simpa using outside)]
  | .assign id name value, r, sees => by
    rw [Resolver.expression, Sees.expression value sees, (sees.add _).reference, Expr.findings,
      add_append]
  | .binary _ _ _ left right, r, sees | .logical _ _ _ left right, r, sees
  | .set _ left _ right, r, sees => by
    rw [Resolver.expression, Sees.expression left sees, Sees.expression right (sees.add _),
      Expr.findings, add_append]
  | .call _ callee arguments _, r, sees => by
    rw [Resolver.expression, Sees.expression callee sees, Sees.expressions arguments (sees.add _),
      Expr.findings, add_append]

theorem Sees.expressions : ∀ (es : List Expr) {r : Resolver}, Sees r c →
    expressions es r = r.add (Expr.findingsEach c es)
  | [], r, _ => (add_nil r).symm
  | e :: rest, r, sees => by
    rw [Resolver.expressions, Sees.expression e sees, Sees.expressions rest (sees.add _),
      Expr.findingsEach, add_append]

end

theorem Sees.optional (sees : Sees r c) (value : Option Expr) :
    optional value r = r.add (findingsOptional c value) := by
  cases value with
  | none => exact (add_nil r).symm
  | some e => exact Sees.expression e sees

/-! Statements. -/

/-- A walk collects some findings and leaves another context behind. -/
structure Follows (r walked : Resolver) (findings : List Finding) (next : Context) : Prop where
  locals : walked.locals = r.locals ++ findings.filterMap Finding.entry?
  errors : walked.errors = r.errors ++ findings.filterMap Finding.error?
  fits : Fits walked next

theorem Fits.collected (fits : Fits r c) (locals : List (ExprId × Nat)) (errors : List ScopeError) :
    Fits { r with locals, errors } c :=
  ⟨fits.scopes, fits.globals, fits.inFunction, fits.inClass, fits.idle⟩

theorem Fits.add (fits : Fits r c) (findings : List Finding) :
    Follows r (r.add findings) findings c :=
  ⟨rfl, rfl, fits.collected _ _⟩

theorem Fits.skip (fits : Fits r c) : Follows r r [] c := ⟨by simp, by simp, fits⟩

theorem Follows.append {middle : Resolver} {between : Context}
    (first : Follows r middle findings between) (second : Follows middle walked more next) :
    Follows r walked (findings ++ more) next where
  locals := by rw [second.locals, first.locals, List.filterMap_append, List.append_assoc]
  errors := by rw [second.errors, first.errors, List.filterMap_append, List.append_assoc]
  fits := second.fits

theorem Fits.define (fits : Fits r c) (name : String) : Fits (r.define name) (c.declare name) := by
  obtain ⟨⟨locals, known⟩, _, _, _⟩ := c
  obtain ⟨hold, complete, inFunction, inClass, idle⟩ := fits
  cases shape : r.scopes with
  | nil =>
    cases List.forall₂_nil_left_iff.mp (shape ▸ hold)
    have defined : r.define name = { r with globals := r.globals.insert name true } := by
      rw [Resolver.define, shape]
    rw [defined]
    refine ⟨hold, ?_, inFunction, inClass, idle⟩
    intro x
    have listed := complete.insert name x
    by_cases again : name ∈ known
    · have present : x = name ∨ x ∈ known ↔ x ∈ known :=
        or_iff_right_of_imp fun same => same ▸ again
      simpa [Context.declare, Scopes.declare, again, present] using listed
    · simpa [Context.declare, Scopes.declare, again] using listed
  | cons scope outer =>
    obtain ⟨names, others, here, rest, rfl⟩ := List.forall₂_cons_left_iff.mp (shape ▸ hold)
    have defined : r.define name = { r with scopes := scope.insert name true :: outer } := by
      rw [Resolver.define, shape]
    rw [defined]
    exact ⟨.cons (here.insert name) rest, complete, inFunction, inClass, idle⟩

theorem define_collected (name : String) (r : Resolver) :
    (r.define name).locals = r.locals ∧ (r.define name).errors = r.errors := by
  unfold Resolver.define
  split <;> exact ⟨rfl, rfl⟩

theorem Fits.complete (fits : Fits r c) (name : String) :
    Follows r (r.define name) [] (c.declare name) := by
  obtain ⟨locals, errors⟩ := define_collected name r
  exact ⟨by simp [locals], by simp [errors], fits.define name⟩

theorem Fits.declare_collected (fits : Fits r c) (name : Lexeme) :
    (r.declare name).locals = r.locals ++ (c.scopes.duplicate name).filterMap Finding.entry? ∧
      (r.declare name).errors = r.errors ++ (c.scopes.duplicate name).filterMap Finding.error? := by
  obtain ⟨⟨locals, known⟩, _, _, _⟩ := c
  have hold := fits.scopes
  unfold Resolver.declare Scopes.duplicate
  cases shape : r.scopes with
  | nil =>
    cases List.forall₂_nil_left_iff.mp (shape ▸ hold)
    simp
  | cons scope outer =>
    obtain ⟨names, others, here, -, rfl⟩ := List.forall₂_cons_left_iff.mp (shape ▸ hold)
    simp only [Table.contains, here name.text]
    by_cases again : name.text ∈ names <;>
      simp [again, error, Finding.breachAt, Finding.entry?, Finding.error?]

/-- The declaration of a variable around what its initial value adds. -/
theorem Fits.declaration (fits : Fits r c) (name : Lexeme) (findings : List Finding) :
    Follows r (((r.declare name).add findings).define name.text)
      (c.scopes.duplicate name ++ findings) (c.declare name.text) := by
  obtain ⟨locals, errors⟩ := fits.declare_collected name
  obtain ⟨sameLocals, sameErrors⟩ := define_collected name.text ((r.declare name).add findings)
  refine ⟨?_, ?_, ?_⟩
  · rw [sameLocals, Resolver.add, locals, List.filterMap_append, List.append_assoc]
  · rw [sameErrors, Resolver.add, errors, List.filterMap_append, List.append_assoc]
  · rw [Resolver.add, define_declare]
    exact (fits.collected _ _).define name.text

theorem Fits.declared (fits : Fits r c) (name : Lexeme) :
    Follows r (r.declared name) (c.scopes.duplicate name) (c.declare name.text) := by
  have whole := fits.declaration name []
  rwa [add_nil, List.append_nil] at whole

theorem Fits.params (fits : Fits r c) (names : List Lexeme) :
    Follows r (r.params names) (c.scopes.duplicateParams names)
      { c with scopes := c.scopes.declareParams names } := by
  induction names generalizing r c with
  | nil => exact fits.skip
  | cons p rest ih =>
    have one := fits.declared p
    exact one.append (ih one.fits)

theorem Fits.enter (fits : Fits r c) :
    Fits { r with scopes := {} :: r.scopes } (c.enter []) :=
  ⟨.cons .empty fits.scopes, fits.globals, fits.inFunction, fits.inClass, fits.idle⟩

/-- What was declared in a scope is gone behind it. -/
theorem Follows.leave {names : List String}
    (inside : Follows { r with scopes := {} :: r.scopes } walked findings next)
    (shape : next.scopes = c.scopes.enter names) :
    Follows r { walked with scopes := walked.scopes.tail } findings
      { next with scopes := c.scopes } := by
  obtain ⟨locals, errors, hold, complete, inFunction, inClass, idle⟩ := inside
  rw [shape] at hold complete
  obtain ⟨_, _, _, rest, scopes⟩ := List.forall₂_cons_right_iff.mp hold
  refine ⟨locals, errors, ?_, complete, inFunction, inClass, idle⟩
  rw [scopes]
  exact rest

theorem superclass_follows (fits : Fits r c) (name : Lexeme) (parent : Option Superclass) :
    Follows r (r.superclass name parent)
      (match parent with
      | none => []
      | some s =>
        (if s.name.text = name.text then [.breachAt .ownSuperclass s.name] else []) ++
          c.reference s.id s.name) c := by
  cases parent with
  | none => exact fits.skip
  | some s =>
    have own : r.inherits name s =
        r.add (if s.name.text = name.text then [.breachAt .ownSuperclass s.name] else []) := by
      unfold inherits
      split
      · simp [add, error, Finding.breachAt, Finding.entry?, Finding.error?]
      · exact (add_nil r).symm
    rw [superclass, own, (fits.sees.add _).reference, ← add_append]
    exact fits.add _

mutual

/-- One induction over statements. -/
theorem Fits.statement : ∀ (s : Stmt) {r : Resolver} {c : Context}, Fits r c → s.Ranked →
    Follows r (statement s r) (s.findings c) (c.after s)
  | .expression value, _, _, fits, _ | .print value, _, _, fits, _ => by
    rw [Resolver.statement, Sees.expression value fits.sees]
    exact fits.add _
  | .var name initial, _, _, fits, _ => by
    rw [Resolver.statement, (fits.initialValue name).optional initial]
    exact fits.declaration name _
  | .block body, _, c, fits, ranked => by
    have inner := Fits.statements body fits.enter ranked
    obtain ⟨names, shape⟩ := Context.afterEach_enter body (c := c.enter []) rfl
    have left := inner.leave shape
    rwa [Context.foldl_after] at left
  | .ifThen condition body, _, c, fits, ranked | .whileLoop condition body, _, c, fits, ranked => by
    rw [Resolver.statement, Sees.expression condition fits.sees]
    have test := fits.add (condition.findings c)
    have branch := Fits.statement body test.fits ranked.2
    rw [Context.after_of_not_declaration ranked.1] at branch
    exact test.append branch
  | .ifElse condition yes no, _, c, fits, ranked => by
    rw [Resolver.statement, Sees.expression condition fits.sees]
    have test := fits.add (condition.findings c)
    have branch := Fits.statement yes test.fits ranked.1.2
    rw [Context.after_of_not_declaration ranked.1.1] at branch
    have other := Fits.statement no branch.fits ranked.2.2
    rw [Context.after_of_not_declaration ranked.2.1] at other
    exact (test.append branch).append other
  | .function declaration, _, _, fits, ranked => by
    have named := fits.declared declaration.name
    exact named.append (Fits.function .function nofun declaration named.fits ranked)
  | .returns keyword value, r, c, fits, _ => by
    have checked : r.returns keyword =
        r.add (if c.inFunction then [] else [.breachAt .topLevelReturn keyword]) := by
      unfold Resolver.returns
      by_cases outside : c.inFunction = false
      · rw [if_pos (fits.inFunction.mpr outside), outside]
        simp [Resolver.add, error, Finding.breachAt, Finding.entry?, Finding.error?]
      · rw [if_neg (mt fits.inFunction.mp outside), if_pos (by simpa using outside), add_nil]
    rw [Resolver.statement, checked, (fits.sees.add _).optional value, ← add_append]
    exact fits.add _
  | .classDecl name parent methods, r, c, fits, ranked => by
    have entered : Fits { r with classKind := .inside } { c with inClass := true } :=
      ⟨fits.scopes, fits.globals, fits.inFunction, by simp, fits.idle⟩
    have named := entered.declared name
    have inherited := superclass_follows named.fits name parent
    have bound : Follows _ _ [] _ := inherited.fits.enter.complete thisName
    have inside := bound.append (Fits.functions .method nofun methods bound.fits ranked)
    have left := inside.leave (c := c.declare name.text) rfl
    have whole := (named.append inherited).append left
    exact ⟨whole.locals, whole.errors, whole.fits.scopes, whole.fits.globals,
      whole.fits.inFunction, fits.inClass, fits.idle⟩

theorem Fits.statements : ∀ (body : List Stmt) {r : Resolver} {c : Context}, Fits r c →
    Stmt.RankedEach body →
      Follows r (statements body r) (Stmt.findingsEach c body) (body.foldl Context.after c)
  | [], _, _, fits, _ => fits.skip
  | s :: rest, _, _, fits, ranked => by
    have one := Fits.statement s fits ranked.1
    exact one.append (Fits.statements rest one.fits ranked.2)

theorem Fits.function (kind : FunctionKind) (isInside : kind ≠ .outside) :
    ∀ (f : FunctionDecl) {r : Resolver} {c : Context}, Fits r c → f.Ranked →
      Follows r (function kind f r) (f.findings c) c
  | .mk _ names body, r, c, fits, ranked => by
    have entered : Fits { r with functionKind := kind } { c with inFunction := true } :=
      ⟨fits.scopes, fits.globals, by simp [isInside], fits.inClass, fits.idle⟩
    have named := entered.enter.params names
    have inside := named.append (Fits.statements body named.fits ranked)
    obtain ⟨_, opened⟩ := c.scopes.declareParams_enter [] names
    obtain ⟨_, shape⟩ := Context.afterEach_enter body (c := c.functionBody names) opened
    have left := inside.leave (c := c) shape
    rw [Context.foldl_after] at left
    exact ⟨left.locals, left.errors, left.fits.scopes, left.fits.globals, fits.inFunction,
      left.fits.inClass, left.fits.idle⟩

theorem Fits.functions (kind : FunctionKind) (isInside : kind ≠ .outside) :
    ∀ (fs : List FunctionDecl) {r : Resolver} {c : Context}, Fits r c →
      FunctionDecl.RankedEach fs →
        Follows r (functions kind fs r) (FunctionDecl.findingsEach c fs) c
  | [], _, _, fits, _ => fits.skip
  | f :: rest, _, _, fits, ranked => by
    have one := Fits.function kind isInside f fits ranked.1
    exact one.append (Fits.functions kind isInside rest one.fits ranked.2)

end

/-- On programs whose declarations stand where they may, resolving with a state is resolving. -/
theorem Fits.resolve {known : List String} (fits : Fits r { scopes := ⟨[], known⟩ })
    (locals : r.locals = []) (errors : r.errors = []) {program : List Stmt}
    (ranked : Stmt.RankedEach program) :
    (r.resolve program).1 = ScopeScript.resolve known program ∧
      Fits (r.resolve program).2 { scopes := ⟨[], globalsAfter known program⟩ } := by
  have follows := Fits.statements program fits ranked
  constructor
  · rw [Resolver.resolve, ScopeScript.resolve, follows.locals, follows.errors, locals, errors]
    rfl
  · have behind := follows.fits.collected [] []
    rwa [Context.foldl_after, Scopes.foldl_after_top] at behind

end Resolver
end ScopeScript
