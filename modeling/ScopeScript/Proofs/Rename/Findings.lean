import ScopeScript.Proofs.Checks
import ScopeScript.Proofs.Rename.Code
import ScopeScript.Proofs.Scope.Walk

/-! Static scoping of renamed code. The walks over the two programs keep contexts that differ by
the change of names only, so they have the same findings. -/
namespace ScopeScript

variable {r : NameChange} {sight behind : Sight} {name name' : Lexeme}

/-- What the innermost scope declares after the change is what it declared before. -/
inductive Innermost (r : NameChange) : Sight → List (List String) → List (List String) → Prop where
  | top : Innermost r .top [] []
  | inside {moved : Bool} {scope scope' : List String} {outer outer' : List (List String)}
    (names : ∀ z ∈ scope', r.back z ∈ scope) :
    Innermost r (.inside moved) (scope :: outer) (scope' :: outer')

/-- Two contexts that differ by the change of names. -/
structure Context.Renamed (r : NameChange) (sight : Sight) (c c' : Context) : Prop where
  sees : Sees r sight.moved c.scopes.distance? c'.scopes.distance?
  innermost : Innermost r sight c.scopes.locals c'.scopes.locals
  globals : c'.scopes.globals = c.scopes.globals
  inFunction : c'.inFunction = c.inFunction
  inClass : c'.inClass = c.inClass
  pending : c'.pending = c.pending ∨ c'.pending = some r.new

/-! How distances change. -/

theorem Scopes.distance?_enter (s : Scopes) :
    (s.enter []).distance? = fun z => (s.distance? z).map (· + 1) := by
  funext z
  simp [distance?, Scopes.enter, List.findIdx?_cons]

theorem Scopes.distance?_declare {s : Scopes} {scope : List String} {outer : List (List String)}
    (inside : s.locals = scope :: outer) (x : String) :
    (s.declare x).distance? = fun z => if x = z then some 0 else s.distance? z := by
  funext z
  by_cases same : x = z
  · simp [distance?, declare, inside, List.findIdx?_cons, same]
  · simp [distance?, declare, inside, List.findIdx?_cons, same, Ne.symm same]

namespace Context.Renamed
variable {c c' : Context}

theorem enter (same : c.Renamed r sight c') :
    (c.enter []).Renamed r (.inside sight.moved) (c'.enter []) where
  sees := by
    simp only [Context.enter, Scopes.distance?_enter]
    exact same.sees.map (· + 1)
  innermost := .inside nofun
  globals := same.globals
  inFunction := same.inFunction
  inClass := same.inClass
  pending := same.pending

theorem declare (same : c.Renamed r sight c') (declares : r.Declares sight name name' behind) :
    (c.declare name.text).Renamed r behind (c'.declare name'.text) := by
  obtain ⟨⟨locals, globals⟩, inFunction, inClass, pending⟩ := c
  obtain ⟨⟨locals', globals'⟩, inFunction', inClass', pending'⟩ := c'
  obtain ⟨sees, innermost, rfl, rfl, rfl, own⟩ := same
  cases innermost with
  | top =>
    cases declares with
    | kept unused => exact ⟨.refl r _, .top, rfl, rfl, rfl, own⟩
  | @inside _ scope scope' _ _ names =>
    have seen := sees.declare declares 0
    rw [← Scopes.distance?_declare rfl, ← Scopes.distance?_declare rfl] at seen
    refine ⟨seen, ?_, rfl, rfl, rfl, own⟩
    have next (z : String) (member : z ∈ name'.text :: scope') : r.back z ∈ name.text :: scope := by
      rcases List.mem_cons.mp member with rfl | member
      · rw [declares.back_eq]
        exact List.mem_cons_self
      · exact List.mem_cons_of_mem _ (names z member)
    cases declares <;> exact .inside next

theorem declareParams (same : c.Renamed r sight c') {params params' : List Lexeme}
    (declares : r.DeclaresEach sight params params' behind) :
    Context.Renamed r behind { c with scopes := c.scopes.declareParams params }
      { c' with scopes := c'.scopes.declareParams params' } := by
  induction declares generalizing c c' with
  | nil => exact same
  | cons first _ ih => exact ih (same.declare first)

theorem functionBody (same : c.Renamed r sight c') {params params' : List Lexeme}
    (declares : r.DeclaresEach (.inside sight.moved) params params' behind) :
    (c.functionBody params).Renamed r behind (c'.functionBody params') :=
  { same.enter.declareParams declares with inFunction := rfl }

theorem classBody (same : c.Renamed r sight c') :
    c.classBody.Renamed r (.inside sight.moved) c'.classBody :=
  { same.enter.declare (r.declares_this sight.moved) with inClass := rfl }

theorem initialValueOf (same : c.Renamed r sight c')
    (declares : r.Declares sight name name' behind) :
    (c.initialValueOf name.text).Renamed r sight (c'.initialValueOf name'.text) := by
  refine { same with pending := ?_ }
  cases declares with
  | kept _ => exact .inl rfl
  | changed _ => exact .inr rfl

/-! The findings at one node. -/

theorem reference_eq (same : c.Renamed r sight c') (use : r.Uses sight.moved name name')
    {id : ExprId} (clean : (c.reference id name).filterMap Finding.error? = []) :
    c'.reference id name' = c.reference id name := by
  obtain ⟨found, unchanged⟩ := same.sees.use use
  unfold Context.reference at clean ⊢
  rw [found]
  cases here : c.scopes.distance? name.text with
  | some distance => rfl
  | none =>
    rw [here] at clean
    obtain rfl := unchanged here
    have sound : ¬(c.pending = some name'.text ∧ name'.text ∉ c.scopes.globals) := by
      intro broken
      simp only [if_pos broken] at clean
      contradiction
    have sound' : ¬(c'.pending = some name'.text ∧ name'.text ∉ c'.scopes.globals) := by
      rintro ⟨pending, unknown⟩
      rcases same.pending with as | new
      · exact sound ⟨as ▸ pending, same.globals ▸ unknown⟩
      · exact use.unused (Option.some.inj (pending.symm.trans new))
    simp only [if_neg sound, if_neg sound']

theorem duplicate_eq (same : c.Renamed r sight c') (declares : r.Declares sight name name' behind)
    (clean : (c.scopes.duplicate name).filterMap Finding.error? = []) :
    c'.scopes.duplicate name' = c.scopes.duplicate name := by
  have innermost := same.innermost
  unfold Scopes.duplicate at clean ⊢
  generalize c.scopes.locals = locals at innermost clean ⊢
  generalize c'.scopes.locals = locals' at innermost ⊢
  cases innermost with
  | top => rfl
  | @inside _ scope scope' _ _ names =>
    have fresh : name.text ∉ scope := by
      intro member
      simp only [List.contains_iff_mem, if_pos member] at clean
      contradiction
    have fresh' : name'.text ∉ scope' := fun member => fresh (declares.back_eq ▸ names _ member)
    simp [fresh, fresh']

theorem duplicateParams_eq (same : c.Renamed r sight c') {params params' : List Lexeme}
    (declares : r.DeclaresEach sight params params' behind)
    (clean : (c.scopes.duplicateParams params).filterMap Finding.error? = []) :
    c'.scopes.duplicateParams params' = c.scopes.duplicateParams params := by
  induction declares generalizing c c' with
  | nil => rfl
  | cons first _ ih =>
    simp only [Scopes.duplicateParams, List.filterMap_append, List.append_eq_nil_iff] at clean
    have others := ih (same.declare first) clean.2
    simp only [Context.declare] at others
    rw [Scopes.duplicateParams, Scopes.duplicateParams, same.duplicate_eq first clean.1, others]

end Context.Renamed

/-- The findings of what a class inherits from. -/
def Superclass.findings (c : Context) (name : Lexeme) : Option Superclass → List Finding
  | none => []
  | some s =>
    (if s.name.text = name.text then [.breachAt .ownSuperclass s.name] else []) ++
      c.reference s.id s.name

/-! Findings without a breach. -/

mutual

theorem Expr.Renamed.findings_eq {c c' : Context} (same : c.Renamed r sight c') {e e' : Expr} :
    e.Renamed r sight.moved e' → (e.findings c).filterMap Finding.error? = [] →
      e'.findings c' = e.findings c
  | .literal, _ => rfl
  | .group renamed, clean => by
    simp only [Expr.findings, renamed.findings_eq same clean]
  | .var use, clean => same.reference_eq use clean
  | .this spelled, clean => by
    simp only [Expr.findings, same.inClass] at clean ⊢
    split at clean
    · next inClass =>
      rw [if_pos inClass, if_pos inClass]
      exact same.reference_eq (r.uses_this _ spelled) clean
    · contradiction
  | .assign renamed use, clean => by
    obtain ⟨first, second⟩ := clean_append.mp clean
    simp only [Expr.findings, renamed.findings_eq same first, same.reference_eq use second]
  | .unary renamed, clean => by
    simp only [Expr.findings, renamed.findings_eq same clean]
  | .binary left right, clean | .logical left right, clean | .set left right, clean => by
    obtain ⟨first, second⟩ := clean_append.mp clean
    simp only [Expr.findings, left.findings_eq same first, right.findings_eq same second]
  | .call callee arguments, clean => by
    obtain ⟨first, second⟩ := clean_append.mp clean
    simp only [Expr.findings, callee.findings_eq same first, arguments.findings_eq same second]
  | .get renamed, clean => by
    simp only [Expr.findings, renamed.findings_eq same clean]

theorem Expr.RenamedEach.findings_eq {c c' : Context} (same : c.Renamed r sight c')
    {es es' : List Expr} :
    Expr.RenamedEach r sight.moved es es' → (Expr.findingsEach c es).filterMap Finding.error? = [] →
      Expr.findingsEach c' es' = Expr.findingsEach c es
  | .nil, _ => rfl
  | .cons renamed others, clean => by
    obtain ⟨first, second⟩ := clean_append.mp clean
    simp only [Expr.findingsEach, renamed.findings_eq same first, others.findings_eq same second]

end

theorem findingsOptional_renamed {c c' : Context} (same : c.Renamed r sight c')
    {value value' : Option Expr} (renamed : Option.Rel (Expr.Renamed r sight.moved) value value')
    (clean : (findingsOptional c value).filterMap Finding.error? = []) :
    findingsOptional c' value' = findingsOptional c value := by
  cases renamed with
  | none => rfl
  | some renamed => exact renamed.findings_eq same clean

theorem Context.Renamed.superclass_eq {c c' : Context} (same : c.Renamed r sight c')
    (unused : name.text ≠ r.new) {superclass superclass' : Option Superclass}
    (parent : Option.Rel (Superclass.Renamed r sight.moved) superclass superclass')
    (clean : (Superclass.findings c name superclass).filterMap Finding.error? = []) :
    Superclass.findings c' name superclass' = Superclass.findings c name superclass := by
  cases parent with
  | none => rfl
  | @some s s' renamed =>
    obtain ⟨first, second⟩ := clean_append.mp clean
    have other : s.name.text ≠ name.text := by
      intro own
      simp only [if_pos own] at first
      contradiction
    have other' : s'.name.text ≠ name.text := by
      rw [renamed.use.changed]
      split
      · exact unused.symm
      · exact other
    simp only [Superclass.findings, if_neg other, if_neg other', renamed.id,
      same.reference_eq renamed.use second]

/-- The contexts behind a statement. -/
theorem Context.Renamed.after {c c' : Context} (same : c.Renamed r sight c') {s s' : Stmt}
    (renamed : s.Renamed r sight s' behind) : (c.after s).Renamed r behind (c'.after s') := by
  cases renamed with
  | var declares _ => exact same.declare declares
  | function unused inner =>
    have kept := same.declare (.kept unused)
    simp only [Context.after, Scopes.after, inner.name_eq]
    exact kept
  | classDecl unused _ _ => exact same.declare (.kept unused)
  | expression _ | print _ | block _ | ifThen _ _ | ifElse _ _ _ | whileLoop _ _ | returns _ =>
    exact same

mutual

/-- Without a breach, renamed code has the same findings. -/
theorem Stmt.Renamed.findings_eq {s s' : Stmt} {sight behind : Sight} {c c' : Context}
    (same : c.Renamed r sight c') : s.Renamed r sight s' behind →
      (s.findings c).filterMap Finding.error? = [] → s'.findings c' = s.findings c
  | .expression renamed, clean | .print renamed, clean => by
    simp only [Stmt.findings, renamed.findings_eq same clean]
  | .var declares renamed, clean => by
    obtain ⟨first, second⟩ := clean_append.mp clean
    have value := findingsOptional_renamed (same.initialValueOf declares) renamed second
    show _ ++ findingsOptional _ _ = _ ++ findingsOptional _ _
    rw [same.duplicate_eq declares first, value]
  | .block inner, clean => by
    simp only [Stmt.findings, inner.findings_eq same.enter clean]
  | .ifThen test inner, clean | .whileLoop test inner, clean => by
    obtain ⟨first, second⟩ := clean_append.mp clean
    simp only [Stmt.findings, test.findings_eq same first, inner.findings_eq same second]
  | .ifElse test branch other, clean => by
    obtain ⟨rest, third⟩ := clean_append.mp clean
    obtain ⟨first, second⟩ := clean_append.mp rest
    simp only [Stmt.findings, test.findings_eq same first, branch.findings_eq same second,
      other.findings_eq same third]
  | .function unused inner, clean => by
    obtain ⟨first, second⟩ := clean_append.mp clean
    simp only [Stmt.findings, inner.name_eq, same.duplicate_eq (.kept unused) first,
      inner.findings_eq (same.declare (.kept unused)) second]
  | .returns renamed, clean => by
    obtain ⟨_, second⟩ := clean_append.mp clean
    have value := findingsOptional_renamed same renamed second
    show _ ++ findingsOptional _ _ = _ ++ findingsOptional _ _
    rw [same.inFunction, value]
  | .classDecl unused parent inner, clean => by
    obtain ⟨rest, third⟩ := clean_append.mp clean
    obtain ⟨first, second⟩ := clean_append.mp rest
    have inside := same.declare (.kept unused)
    show _ ++ Superclass.findings _ _ _ ++ _ = _ ++ Superclass.findings _ _ _ ++ _
    rw [same.duplicate_eq (.kept unused) first, inside.superclass_eq unused parent second,
      inner.findings_eq inside.classBody third]

/-- Each statement is walked over in the context that those before it leave. -/
theorem Stmt.RenamedEach.findings_eq {body body' : List Stmt} {sight behind : Sight}
    {c c' : Context} (same : c.Renamed r sight c') : Stmt.RenamedEach r sight body body' behind →
      (Stmt.findingsEach c body).filterMap Finding.error? = [] →
      Stmt.findingsEach c' body' = Stmt.findingsEach c body
  | .nil, _ => rfl
  | .cons renamed others, clean => by
    obtain ⟨first, second⟩ := clean_append.mp clean
    simp only [Stmt.findingsEach, renamed.findings_eq same first,
      others.findings_eq (same.after renamed) second]

theorem FunctionDecl.Renamed.findings_eq {f f' : FunctionDecl} {sight : Sight} {c c' : Context}
    (same : c.Renamed r sight c') : f.Renamed r sight.moved f' →
      (f.findings c).filterMap Finding.error? = [] → f'.findings c' = f.findings c
  | .mk declares inner, clean => by
    obtain ⟨first, second⟩ := clean_append.mp clean
    have given := same.enter.duplicateParams_eq declares first
    rw [FunctionDecl.findings, FunctionDecl.findings,
      inner.findings_eq (same.functionBody declares) second]
    exact congrArg (· ++ _) given

theorem FunctionDecl.RenamedEach.findings_eq {fs fs' : List FunctionDecl} {sight : Sight}
    {c c' : Context} (same : c.Renamed r sight c') :
    FunctionDecl.RenamedEach r sight.moved fs fs' →
      (FunctionDecl.findingsEach c fs).filterMap Finding.error? = [] →
      FunctionDecl.findingsEach c' fs' = FunctionDecl.findingsEach c fs
  | .nil, _ => rfl
  | .cons renamed others, clean => by
    obtain ⟨first, second⟩ := clean_append.mp clean
    simp only [FunctionDecl.findingsEach, renamed.findings_eq same first,
      others.findings_eq same second]

end

/-! The distances that fit code fit it when it is renamed. -/

section Scoped
variable {n : Notes} {s s' : Scopes}

theorem Scopes.Noted.renamed {moved : Bool} (sees : Sees r moved s.distance? s'.distance?)
    (use : r.Uses moved name name') {id : ExprId} (noted : s.Noted n id name) :
    s'.Noted n id name' :=
  ⟨noted.1, noted.2.trans (sees.use use).1.symm⟩

theorem Context.Renamed.fresh {c c' : Context} (same : c.Renamed r sight c')
    (declares : r.Declares sight name name' behind) (fresh : c.scopes.Fresh name.text) :
    c'.scopes.Fresh name'.text := by
  have innermost := same.innermost
  unfold Scopes.Fresh at fresh ⊢
  generalize c.scopes.locals = locals at innermost fresh
  generalize c'.scopes.locals = locals' at innermost
  cases innermost with
  | top => trivial
  | inside names => exact fun member => fresh (declares.back_eq ▸ names _ member)

theorem Context.Renamed.freshParams {c c' : Context} (same : c.Renamed r sight c')
    {params params' : List Lexeme} (declares : r.DeclaresEach sight params params' behind)
    (fresh : c.scopes.FreshParams params) : c'.scopes.FreshParams params' := by
  induction declares generalizing c c' with
  | nil => trivial
  | cons first _ ih => exact ⟨same.fresh first fresh.1, ih (same.declare first) fresh.2⟩

mutual

theorem Expr.Renamed.scoped {moved : Bool} (sees : Sees r moved s.distance? s'.distance?)
    {e e' : Expr} : e.Renamed r moved e' → e.Scoped n s → e'.Scoped n s'
  | .literal, agrees => agrees
  | .group renamed, agrees | .unary renamed, agrees | .get renamed, agrees =>
    renamed.scoped sees agrees
  | .var use, agrees => .renamed sees use agrees
  | .this spelled, agrees => .renamed sees (r.uses_this _ spelled) agrees
  | .assign renamed use, agrees => ⟨renamed.scoped sees agrees.1, agrees.2.renamed sees use⟩
  | .binary left right, agrees | .logical left right, agrees | .set left right, agrees =>
    ⟨left.scoped sees agrees.1, right.scoped sees agrees.2⟩
  | .call callee arguments, agrees =>
    ⟨callee.scoped sees agrees.1, arguments.scoped sees agrees.2⟩

theorem Expr.RenamedEach.scoped {moved : Bool} (sees : Sees r moved s.distance? s'.distance?)
    {es es' : List Expr} : Expr.RenamedEach r moved es es' →
      Expr.ScopedEach n s es → Expr.ScopedEach n s' es'
  | .nil, agrees => agrees
  | .cons renamed others, agrees => ⟨renamed.scoped sees agrees.1, others.scoped sees agrees.2⟩

end

theorem Stmt.Renamed.isDeclaration_eq {s s' : Stmt} (renamed : s.Renamed r sight s' behind) :
    s'.isDeclaration = s.isDeclaration := by
  cases renamed <;> rfl

/-- Only declarations change what a name means behind them. -/
theorem Stmt.Renamed.behind_eq {s s' : Stmt} (renamed : s.Renamed r sight s' behind)
    (statement : s.isDeclaration = false) : behind = sight := by
  cases renamed with
  | expression _ | print _ | block _ | ifThen _ _ | ifElse _ _ _ | whileLoop _ _ | returns _ => rfl
  | var _ _ | function _ _ | classDecl _ _ _ => contradiction

mutual

theorem Stmt.Renamed.scoped {s s' : Stmt} {sight behind : Sight} {c c' : Context}
    (same : c.Renamed r sight c') : s.Renamed r sight s' behind → s.Scoped n c → s'.Scoped n c'
  | .expression renamed, agrees | .print renamed, agrees => renamed.scoped same.sees agrees
  | .var declares .none, agrees => ⟨same.fresh declares agrees.1, trivial⟩
  | .var declares (.some renamed), agrees =>
    ⟨same.fresh declares agrees.1, renamed.scoped same.sees agrees.2⟩
  | .block inner, agrees => inner.scoped same.enter agrees
  | .ifThen test inner, agrees | .whileLoop test inner, agrees =>
    ⟨test.scoped same.sees agrees.1, inner.isDeclaration_eq.trans agrees.2.1,
      inner.scoped same agrees.2.2⟩
  | .ifElse test branch other, agrees =>
    ⟨test.scoped same.sees agrees.1,
      ⟨branch.isDeclaration_eq.trans agrees.2.1.1, branch.scoped same agrees.2.1.2⟩,
      other.isDeclaration_eq.trans agrees.2.2.1, other.scoped same agrees.2.2.2⟩
  | .function unused inner, agrees => by
    simp only [Stmt.Scoped, inner.name_eq]
    exact ⟨same.fresh (.kept unused) agrees.1,
      inner.scoped (same.declare (.kept unused)) agrees.2⟩
  | .returns .none, agrees => ⟨same.inFunction.trans agrees.1, trivial⟩
  | .returns (.some renamed), agrees =>
    ⟨same.inFunction.trans agrees.1, renamed.scoped same.sees agrees.2⟩
  | .classDecl unused .none inner, agrees =>
    ⟨same.fresh (.kept unused) agrees.1, trivial,
      inner.scoped (same.declare (.kept unused)).classBody agrees.2.2⟩
  | .classDecl unused (.some renamed) inner, agrees => by
    have inside := same.declare (.kept unused)
    have noted := Scopes.Noted.renamed inside.sees renamed.use agrees.2.1
    rw [← renamed.id] at noted
    exact ⟨same.fresh (.kept unused) agrees.1, noted, inner.scoped inside.classBody agrees.2.2⟩

theorem Stmt.RenamedEach.scoped {body body' : List Stmt} {sight behind : Sight} {c c' : Context}
    (same : c.Renamed r sight c') : Stmt.RenamedEach r sight body body' behind →
      Stmt.ScopedEach n c body → Stmt.ScopedEach n c' body'
  | .nil, agrees => agrees
  | .cons renamed others, agrees =>
    ⟨renamed.scoped same agrees.1, others.scoped (same.after renamed) agrees.2⟩

theorem FunctionDecl.Renamed.scoped {f f' : FunctionDecl} {sight : Sight} {c c' : Context}
    (same : c.Renamed r sight c') : f.Renamed r sight.moved f' → f.Scoped n c → f'.Scoped n c'
  | .mk declares inner, agrees =>
    ⟨same.enter.freshParams declares agrees.1, inner.scoped (same.functionBody declares) agrees.2⟩

theorem FunctionDecl.RenamedEach.scoped {fs fs' : List FunctionDecl} {sight : Sight}
    {c c' : Context} (same : c.Renamed r sight c') :
    FunctionDecl.RenamedEach r sight.moved fs fs' →
      FunctionDecl.ScopedEach n c fs → FunctionDecl.ScopedEach n c' fs'
  | .nil, agrees => agrees
  | .cons renamed others, agrees => ⟨renamed.scoped same agrees.1, others.scoped same agrees.2⟩

end

end Scoped

/-! Whole programs. -/

theorem Context.Renamed.start (r : NameChange) (globals : List String) :
    Context.Renamed r .top { scopes := ⟨[], globals⟩ } { scopes := ⟨[], globals⟩ } :=
  ⟨.refl r _, .top, rfl, rfl, rfl, .inl rfl⟩

/-- Renamed programs pass static scoping with the same distances. -/
theorem resolve_renamed {program program' : List Stmt}
    (renamed : Stmt.RenamedEach r .top program program' behind) {globals : List String}
    {entries : List (ExprId × Nat)} (resolved : resolve globals program = .ok entries) :
    resolve globals program' = .ok entries := by
  obtain ⟨clean, found⟩ := resolve_eq_ok.mp resolved
  have findings : programFindings globals program' = programFindings globals program :=
    renamed.findings_eq (.start r globals) clean
  rw [resolve_eq_ok, findings]
  exact ⟨clean, found⟩

end ScopeScript
