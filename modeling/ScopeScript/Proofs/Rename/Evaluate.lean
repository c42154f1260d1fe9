import ScopeScript.Proofs.Rename.Values

/-! Whole runs of renamed code by lexical scoping, construct by construct and with every amount of
fuel. -/
namespace ScopeScript.Lexical

variable {r : NameChange} {n n' fuel : Nat} {moved : Bool} {sight behind : Sight}
  {names names' : Names} {scope scope' : Scope}

inductive Flow.Renamed (r : NameChange) (behind : Sight) (n : Nat) : Flow → Flow → Prop where
  | normal {scope scope' : Scope} (scopes : scope.Renamed r n behind scope') :
    Flow.Renamed r behind n (.normal scope) (.normal scope')
  | returned {v v' : Value Names} (same : v.Renamed r n v') :
    Flow.Renamed r behind n (.returned v) (.returned v')

/-- Renamed expressions are evaluated alike. -/
def ValuesParallel (r : NameChange) (value : Names → Expr → Eval (Value Names)) : Prop :=
  ∀ {n : Nat} {moved : Bool} {names names' : Names} {e e' : Expr}, Maps r n moved names names' →
    e.Renamed r moved e' → Parallel r n (Value.Renamed r) (value names e) (value names' e')

/-- Renamed statements run alike. -/
def RunsParallel (r : NameChange) (run : Scope → Stmt → Eval Flow) : Prop :=
  ∀ {n : Nat} {sight behind : Sight} {scope scope' : Scope} {s s' : Stmt},
    scope.Renamed r n sight scope' → s.Renamed r sight s' behind →
      Parallel r n (Flow.Renamed r behind) (run scope s) (run scope' s')

/-- Renamed loops run alike. -/
def LoopsParallel (r : NameChange) (loop : Scope → Expr → Stmt → Eval Flow) : Prop :=
  ∀ {n : Nat} {sight last : Sight} {scope scope' : Scope} {condition condition' : Expr}
    {body body' : Stmt}, scope.Renamed r n sight scope' →
    condition.Renamed r sight.moved condition' → body.Renamed r sight body' last →
      Parallel r n (Flow.Renamed r sight) (loop scope condition body)
        (loop scope' condition' body')

namespace Parallel
variable {run : Scope → Stmt → Eval Flow} {value : Names → Expr → Eval (Value Names)}

theorem valueEach (values : ValuesParallel r value) (maps : Maps r n moved names names')
    {arguments arguments' : List Expr} (renamed : Expr.RenamedEach r moved arguments arguments') :
    Parallel r n (fun n' => List.Forall₂ (Value.Renamed r n'))
      (Eval.valueEach (value names) arguments) (Eval.valueEach (value names') arguments') := by
  induction arguments generalizing n arguments' with
  | nil =>
    cases renamed with
    | nil => exact .pure .nil
  | cons e rest ih =>
    cases renamed with
    | cons first others =>
      apply (values maps first).bind
      intro n₁ v v' more same
      apply (ih (maps.mono more) others).bind
      intro n₂ vs vs' later sames
      exact .pure (.cons (same.mono later) sames)

theorem runEach (runs : RunsParallel r run) {body body' : List Stmt}
    (scopes : scope.Renamed r n sight scope')
    (renamed : Stmt.RenamedEach r sight body body' behind) :
    Parallel r n (Flow.Renamed r behind) (Eval.runEach run scope body)
      (Eval.runEach run scope' body') := by
  induction body generalizing n sight scope scope' body' with
  | nil =>
    cases renamed with
    | nil => exact .pure (.normal scopes)
  | cons s rest ih =>
    cases renamed with
    | cons first others =>
      apply (runs scopes first).bind
      intro n₁ flow flow' _ same
      cases same with
      | normal scopes => exact ih scopes others
      | returned same => exact .pure (.returned same)

theorem within {inside inside' : Eval Flow} (scopes : scope.Renamed r n sight scope')
    (inner : Parallel r n (Flow.Renamed r behind) inside inside') :
    Parallel r n (Flow.Renamed r sight) (Eval.within scope inside)
      (Eval.within scope' inside') := by
  apply inner.bind
  intro n₁ flow flow' more same
  cases same with
  | normal _ => exact .pure (.normal (scopes.mono more))
  | returned same => exact .pure (.returned same)

theorem callClosure (runs : RunsParallel r run) {f f' : Closure Names} (same : f.Renamed r n f')
    {arguments others : List (Value Names)}
    (given : List.Forall₂ (Value.Renamed r n) arguments others)
    (enough : arguments.length = f.arity) :
    Parallel r n (Value.Renamed r) (Eval.callClosure run f arguments)
      (Eval.callClosure run f' others) := by
  obtain ⟨isInit, moved, maps, renamed⟩ := same
  obtain ⟨d, names, init⟩ := f
  obtain ⟨d', names', init'⟩ := f'
  obtain rfl : init' = init := isInit
  cases renamed with
  | mk declares inner =>
    apply (declareEach (.inner maps) declares given enough).bind
    intro n₁ start start' more scopes
    apply (runEach runs scopes inner).bind
    intro n₂ flow flow' later ended
    cases init' with
    | true =>
      apply Parallel.get
      intro m m' machines size
      have found := Found.this ((maps.mono more).mono later)
      rcases found.value?_cases machines size with ⟨left, right, _⟩ | ⟨v, v', left, right, same⟩
      · rw [left, right]
        exact .pure .nil
      · rw [left, right]
        exact .pure same
    | false =>
      cases ended with
      | normal _ => exact .pure .nil
      | returned same => exact .pure same

theorem construct (runs : RunsParallel r run) {c c' : Class Names} (same : c.Renamed r n c')
    {arguments others : List (Value Names)}
    (given : List.Forall₂ (Value.Renamed r n) arguments others)
    (enough : arguments.length = c.arity) :
    Parallel r n (Value.Renamed r) (Eval.construct run c arguments)
      (Eval.construct run c' others) := by
  apply (newObject same).bind
  rintro n₁ object _ more rfl
  rcases same.method?_cases initName with ⟨left, right⟩ | ⟨f, f', left, right, method⟩
  · rw [left, right]
    exact .pure (.object _)
  · rw [left, right]
    rw [Class.arity, left] at enough
    apply (bindMethod (method.mono more) _).bind
    intro n₂ b b' later bound
    have given₂ := given.imp fun _ _ same => (same.mono more).mono later
    have declared : b.arity = f.arity := by rw [Closure.arity, Closure.arity, bound.2]
    exact (callClosure runs bound.1 given₂ (enough.trans declared.symm)).bind
      fun _ _ _ _ _ => .pure (.object _)

theorem call (runs : RunsParallel r run) {callee callee' : Value Names}
    (same : callee.Renamed r n callee') {arguments others : List (Value Names)}
    (given : List.Forall₂ (Value.Renamed r n) arguments others) (closing : Lexeme) :
    Parallel r n (Value.Renamed r) (Eval.call run callee arguments closing)
      (Eval.call run callee' others closing) := by
  cases same with
  | number _ | string _ | boolean _ | nil | object _ => exact .fail _ closing
  | callable same =>
    simp only [Eval.call, same.arity_eq, ← given.length_eq]
    split
    · next enough =>
      cases same with
      | native f =>
        cases f
        apply readClock.bind
        rintro _ reading _ _ rfl
        exact .pure (.number _)
      | function same => exact callClosure runs same given enough
      | ofClass same => exact construct runs same given enough
    · exact .fail _ closing

theorem superclassOf (maps : Maps r n moved names names')
    {superclass superclass' : Option Superclass}
    (parent : Option.Rel (Superclass.Renamed r moved) superclass superclass') :
    Parallel r n (fun n' => Option.Rel (Class.Renamed r n')) (Eval.superclassOf names superclass)
      (Eval.superclassOf names' superclass') := by
  cases parent with
  | none => exact .pure .none
  | @some s s' renamed =>
    apply (readName maps renamed.use).bind
    intro n₁ v v' _ same
    have failed : Parallel r n₁ (fun n' => Option.Rel (Class.Renamed r n'))
        (Eval.fail .superclassNotClass s.name) (Eval.fail .superclassNotClass s'.name) := by
      simp only [Eval.fail, renamed.use.line_eq]
      exact .throw
    cases same with
    | number _ | string _ | boolean _ | nil | object _ => exact failed
    | callable same =>
      cases same with
      | native _ | function _ => exact failed
      | ofClass same => exact .pure (.some same)

/-- The methods of a class keep the map of the place where the class is declared. -/
theorem methodTable (maps : Maps r n moved names names') {methods methods' : List FunctionDecl}
    (renamed : FunctionDecl.RenamedEach r moved methods methods') :
    Table.Rel (Closure.Renamed r n) (Eval.methodTable names methods)
      (Eval.methodTable names' methods') := by
  refine Table.Rel.ofList ?_
  induction methods generalizing methods' with
  | nil =>
    cases renamed with
    | nil => exact .nil
  | cons f rest ih =>
    cases renamed with
    | cons first others =>
      have name := first.name_eq
      refine .cons ⟨?_, ?_, moved, maps, first⟩ (ih others)
      · exact congrArg Lexeme.text name.symm
      · simp only [name]

theorem declareClass (scopes : scope.Renamed r n sight scope') {name : Lexeme}
    {superclass superclass' : Option Superclass} {methods methods' : List FunctionDecl}
    (unused : name.text ≠ r.new)
    (parent : Option.Rel (Superclass.Renamed r (sight.shadow r name.text).moved) superclass
      superclass')
    (inner : FunctionDecl.RenamedEach r (sight.shadow r name.text).moved methods methods') :
    Parallel r n (fun n' => Scope.Renamed r n' (sight.shadow r name.text))
      (Eval.declareClass scope name superclass methods)
      (Eval.declareClass scope' name superclass' methods') := by
  apply (declare scopes (.kept unused) .nil).bind
  intro n₁ start start' _ scopes
  apply (superclassOf scopes.maps parent).bind
  intro n₂ above above' more related
  have scopes := scopes.mono more
  have table := methodTable scopes.maps inner
  have made : Class.Renamed r n₂ (.mk name.text above (Eval.methodTable start.names methods))
      (.mk name.text above' (Eval.methodTable start'.names methods')) := by
    cases related with
    | none => exact .base table
    | some same => exact .derived same table
  apply (put (.declared scopes.maps unused) (.callable (.ofClass made))).bind
  intro n₃ _ _ later _
  exact .pure (scopes.mono later)

theorem declareFunction (scopes : scope.Renamed r n sight scope') {f f' : FunctionDecl}
    (unused : f.name.text ≠ r.new)
    (inner : f.Renamed r (sight.shadow r f.name.text).moved f') :
    Parallel r n (fun n' => Scope.Renamed r n' (sight.shadow r f.name.text))
      (Eval.declareFunction scope f) (Eval.declareFunction scope' f') := by
  simp only [Eval.declareFunction, inner.name_eq]
  apply (declare scopes (.kept unused) .nil).bind
  intro n₁ start start' _ scopes
  have made : Closure.Renamed r n₁ ⟨f, start.names, false⟩ ⟨f', start'.names, false⟩ :=
    ⟨rfl, _, scopes.maps, inner⟩
  apply (put (.declared scopes.maps unused) (.callable (.function made))).bind
  intro n₂ _ _ later _
  exact .pure (scopes.mono later)

end Parallel

theorem valuesParallel_succ (values : ValuesParallel r (evaluate fuel))
    (runs : RunsParallel r (execute fuel)) : ValuesParallel r (evaluate (fuel + 1)) := by
  intro n moved names names' e e' maps renamed
  cases renamed with
  | @literal _ value => cases value <;> exact .pure (by constructor)
  | group same => exact values maps same
  | var use => exact .readName maps use
  | this spelled => exact .readName maps (r.uses_this moved spelled)
  | assign same use =>
    apply (values maps same).bind
    intro n₁ v v' more same
    apply (Parallel.writeName (maps.mono more) use same).bind
    intro n₂ _ _ later _
    exact .pure (same.mono later)
  | @unary _ op sign _ _ same =>
    apply (values maps same).bind
    intro _ v v' _ same
    rw [op.apply_eq same]
    exact .orFail sign fun _ => op.isData_apply
  | @binary _ op sign _ _ _ _ first second =>
    apply (values maps first).bind
    intro n₁ a a' more left
    apply (values (maps.mono more) second).bind
    intro _ b b' later right
    rw [op.apply_eq (left.mono later) right]
    exact .orFail sign fun _ => op.isData_apply
  | @logical _ op _ _ _ _ _ first second =>
    apply (values maps first).bind
    intro n₁ v v' more same
    rw [same.decides_eq op]
    split
    · exact .pure same
    · exact values (maps.mono more) second
  | @call _ _ _ _ _ closing first others =>
    apply (values maps first).bind
    intro n₁ f f' more same
    apply (Parallel.valueEach values (maps.mono more) others).bind
    intro _ vs vs' later given
    exact .call runs (same.mono later) given closing
  | @get _ _ _ property same =>
    apply (values maps same).bind
    intro _ v v' _ same
    cases same with
    | object id => exact .readProperty id property
    | number _ | string _ | boolean _ | nil | callable _ => exact .fail _ property
  | @set _ _ _ _ _ property first second =>
    apply (values maps first).bind
    intro n₁ v v' more same
    cases same with
    | object id =>
      apply (values (maps.mono more) second).bind
      intro _ v v' _ same
      apply (Parallel.setField id property.text same).bind
      intro _ _ _ later _
      exact .pure (same.mono later)
    | number _ | string _ | boolean _ | nil | callable _ => exact .fail _ property

theorem runsParallel_succ (values : ValuesParallel r (evaluate fuel))
    (runs : RunsParallel r (execute fuel)) (loops : LoopsParallel r (rounds fuel)) :
    RunsParallel r (execute (fuel + 1)) := by
  intro n sight behind scope scope' s s' scopes renamed
  cases renamed with
  | expression same =>
    apply (values scopes.maps same).bind
    intro _ _ _ more _
    exact .pure (.normal (scopes.mono more))
  | print same =>
    apply (values scopes.maps same).bind
    intro n₁ v v' more same
    apply (Parallel.print same).bind
    intro _ _ _ later _
    exact .pure (.normal ((scopes.mono more).mono later))
  | var declares same =>
    cases same with
    | none =>
      apply (Parallel.declare scopes declares .nil).bind
      intro _ _ _ _ scopes
      exact .pure (.normal scopes)
    | some same =>
      apply (values scopes.maps same).bind
      intro n₁ v v' more same
      apply (Parallel.declare (scopes.mono more) declares same).bind
      intro _ _ _ _ scopes
      exact .pure (.normal scopes)
  | block inner => exact .within scopes (.runEach runs (.inner scopes.maps) inner)
  | ifThen test branch =>
    apply (values scopes.maps test).bind
    intro n₁ v v' more same
    rw [same.truthy_eq]
    split
    · exact .within (scopes.mono more) (runs (scopes.mono more) branch)
    · exact .pure (.normal (scopes.mono more))
  | ifElse test branch other =>
    apply (values scopes.maps test).bind
    intro n₁ v v' more same
    rw [same.truthy_eq]
    split
    · exact .within (scopes.mono more) (runs (scopes.mono more) branch)
    · exact .within (scopes.mono more) (runs (scopes.mono more) other)
  | whileLoop test inner => exact loops scopes test inner
  | function unused inner =>
    apply (Parallel.declareFunction scopes unused inner).bind
    intro _ _ _ _ scopes
    exact .pure (.normal scopes)
  | returns same =>
    cases same with
    | none => exact .pure (.returned .nil)
    | some same =>
      apply (values scopes.maps same).bind
      intro _ _ _ _ same
      exact .pure (.returned same)
  | classDecl unused parent inner =>
    apply (Parallel.declareClass scopes unused parent inner).bind
    intro _ _ _ _ scopes
    exact .pure (.normal scopes)

theorem loopsParallel_succ (values : ValuesParallel r (evaluate fuel))
    (runs : RunsParallel r (execute fuel)) (loops : LoopsParallel r (rounds fuel)) :
    LoopsParallel r (rounds (fuel + 1)) := by
  intro n sight last scope scope' condition condition' body body' scopes test inner
  apply (values scopes.maps test).bind
  intro n₁ v v' more same
  rw [same.truthy_eq]
  split
  · apply (runs (scopes.mono more) inner).bind
    intro n₂ flow flow' later same
    cases same with
    | normal _ => exact loops ((scopes.mono more).mono later) test inner
    | returned same => exact .pure (.returned same)
  · exact .pure (.normal (scopes.mono more))

/-- The evaluator does the same with renamed code. -/
theorem evaluator_parallel (r : NameChange) (fuel : Nat) :
    ValuesParallel r (evaluate fuel) ∧ RunsParallel r (execute fuel) ∧
      LoopsParallel r (rounds fuel) := by
  induction fuel with
  | zero =>
    refine ⟨fun _ _ => ?_, fun _ _ => ?_, fun _ _ _ => ?_⟩ <;> exact Parallel.throw
  | succ fuel ih =>
    obtain ⟨values, runs, loops⟩ := ih
    exact ⟨valuesParallel_succ values runs, runsParallel_succ values runs loops,
      loopsParallel_succ values runs loops⟩

/-- A whole program. -/
theorem interpret_parallel (fuel : Nat) {program program' : List Stmt}
    (renamed : Stmt.RenamedEach r .top program program' behind) :
    Parallel r n (fun _ _ _ => True) (interpret fuel program) (interpret fuel program') := by
  apply (Parallel.runEach (evaluator_parallel r fuel).2.1 .top renamed).bind
  intro _ _ _ _ _
  exact .flush

end ScopeScript.Lexical
