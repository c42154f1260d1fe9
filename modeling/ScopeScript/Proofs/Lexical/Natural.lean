import ScopeScript.Proofs.Lexical.Relabel

/-! Whole runs with other numbers and lines. -/
namespace ScopeScript.Lexical
variable {r : Relabel}

def Flow.relabel (r : Relabel) : Flow → Flow
  | normal scope => normal scope
  | returned v => returned (v.relabel r)

/-- Statements run alike with other labels. -/
def RunsNatural (r : Relabel) (run : Scope → Stmt → Eval Flow) : Prop :=
  ∀ scope s, Natural r (Flow.relabel r) (run scope s) (run scope (s.relabel r))

/-- Expressions are evaluated alike with other labels. -/
def ValuesNatural (r : Relabel) (value : Names → Expr → Eval (Value Names)) : Prop :=
  ∀ names e, Natural r (Value.relabel r) (value names e) (value names (e.relabel r))

namespace Natural
variable {run : Scope → Stmt → Eval Flow} {value : Names → Expr → Eval (Value Names)}

theorem runEach (runs : RunsNatural r run) (scope : Scope) (body : List Stmt) :
    Natural r (Flow.relabel r) (Eval.runEach run scope body)
      (Eval.runEach run scope (Stmt.relabelEach r body)) := by
  induction body generalizing scope with
  | nil => exact .pure rfl
  | cons s rest ih =>
    apply (runs scope s).bind
    intro flow
    cases flow with
    | normal scope => exact ih scope
    | returned v => exact .pure rfl

theorem within (scope : Scope) {a b : Eval Flow} (inside : Natural r (Flow.relabel r) a b) :
    Natural r (Flow.relabel r) (Eval.within scope a) (Eval.within scope b) := by
  apply inside.bind
  intro flow
  cases flow <;> exact .pure rfl

theorem valueEach (values : ValuesNatural r value) (names : Names) (es : List Expr) :
    Natural r (List.map (Value.relabel r)) (Eval.valueEach (value names) es)
      (Eval.valueEach (value names) (Expr.relabelEach r es)) := by
  induction es with
  | nil => exact .pure rfl
  | cons e rest ih => exact (values names e).bind fun v => ih.bind fun vs => .pure rfl

theorem callClosure (runs : RunsNatural r run) (f : Closure Names)
    (arguments : List (Value Names)) :
    Natural r (Value.relabel r) (Eval.callClosure run f arguments)
      (Eval.callClosure run (f.relabel r) (arguments.map (Value.relabel r))) := by
  obtain ⟨⟨name, params, body⟩, scope, isInit⟩ := f
  have texts : (params.map (Lexeme.relabel r)).map (·.text) = params.map (·.text) := by
    rw [List.map_map]
    rfl
  simp only [Eval.callClosure, Closure.relabel, FunctionDecl.relabel, FunctionDecl.params,
    FunctionDecl.body, texts]
  apply (declareEach _ _ arguments).bind
  intro inside
  apply (runEach runs inside body).bind
  intro flow
  cases isInit with
  | true =>
    apply Natural.get.bind
    intro m
    rw [Machine.relabel_value?]
    cases m.value? scope thisName <;> exact .pure rfl
  | false => cases flow <;> exact .pure rfl

theorem construct (runs : RunsNatural r run) (c : Class Names) (arguments : List (Value Names)) :
    Natural r (Value.relabel r) (Eval.construct run c arguments)
      (Eval.construct run (c.relabel r) (arguments.map (Value.relabel r))) := by
  apply (newObject c).bind
  intro object
  rw [Class.relabel_method?]
  cases c.method? initName with
  | none => exact .pure rfl
  | some method =>
    apply (bindMethod method object).bind
    intro bound
    exact (callClosure runs bound arguments).bind fun _ => .pure rfl

theorem enter (runs : RunsNatural r run) (f : Callable Names) (arguments : List (Value Names)) :
    Natural r (Value.relabel r) (Eval.enter run arguments f)
      (Eval.enter run (arguments.map (Value.relabel r)) (f.relabel r)) := by
  cases f with
  | native f =>
    cases f
    exact readClock.bind fun _ => .pure rfl
  | function f => exact callClosure runs f arguments
  | ofClass c => exact construct runs c arguments

theorem call (runs : RunsNatural r run) (callee : Value Names) (arguments : List (Value Names))
    (closing : Lexeme) :
    Natural r (Value.relabel r) (Eval.call run callee arguments closing)
      (Eval.call run (callee.relabel r) (arguments.map (Value.relabel r))
        (closing.relabel r)) := by
  cases callee with
  | number _ | string _ | boolean _ | nil | object _ => exact .fail _ closing
  | callable f =>
    simp only [Eval.call, Value.relabel, List.length_map, Callable.relabel_arity]
    split
    · exact enter runs f arguments
    · exact .fail _ closing

theorem superclassOf (names : Names) (superclass : Option Superclass) :
    Natural r (Option.map (Class.relabel r)) (Eval.superclassOf names superclass)
      (Eval.superclassOf names (superclass.map (Superclass.relabel r))) := by
  cases superclass with
  | none => exact .pure rfl
  | some s =>
    apply (readName names s.name).bind
    intro v
    cases v with
    | number _ | string _ | boolean _ | nil | object _ => exact .fail _ s.name
    | callable f =>
      cases f with
      | native _ | function _ => exact .fail _ s.name
      | ofClass c => exact .pure rfl

theorem methodTable (names : Names) (methods : List FunctionDecl) :
    (Eval.methodTable names methods).map (Closure.relabel r) =
      Eval.methodTable names (FunctionDecl.relabelEach r methods) := by
  rw [Eval.methodTable, Table.map_ofList, Eval.methodTable, FunctionDecl.relabelEach_eq_map]
  simp [Closure.relabel, Function.comp_def]

theorem declareClass (scope : Scope) (name : Lexeme) (superclass : Option Superclass)
    (methods : List FunctionDecl) :
    Natural r id (Eval.declareClass scope name superclass methods)
      (Eval.declareClass scope (name.relabel r) (superclass.map (Superclass.relabel r))
        (FunctionDecl.relabelEach r methods)) := by
  apply (declare scope name.text .nil).bind
  intro scope
  apply (superclassOf scope.names superclass).bind
  intro parent
  have made := put (r := r) scope.names name.text
    (.callable (.ofClass (.mk name.text parent (Eval.methodTable scope.names methods))))
  have same : Value.relabel r (.callable (.ofClass
      (.mk name.text parent (Eval.methodTable scope.names methods)))) =
      .callable (.ofClass (.mk name.text (parent.map (Class.relabel r))
        (Eval.methodTable scope.names (FunctionDecl.relabelEach r methods)))) := by
    rw [← methodTable]
    cases parent <;> rfl
  rw [same] at made
  exact made.bind fun _ => .pure rfl

theorem declareFunction (scope : Scope) (d : FunctionDecl) :
    Natural r id (Eval.declareFunction scope d) (Eval.declareFunction scope (d.relabel r)) := by
  simp only [Eval.declareFunction, FunctionDecl.relabel_name, Lexeme.relabel_text]
  apply (declare scope d.name.text .nil).bind
  intro scope
  exact (put scope.names d.name.text _).bind fun _ => .pure rfl

end Natural

variable {fuel : Nat}

theorem valuesNatural_succ (values : ValuesNatural r (evaluate fuel))
    (runs : RunsNatural r (execute fuel)) : ValuesNatural r (evaluate (fuel + 1)) := by
  intro names e
  cases e with
  | literal id value => cases value <;> exact .pure rfl
  | group id inner => exact values names inner
  | var id name | this id name => exact .readName names name
  | assign id name value =>
    apply (values names value).bind
    intro v
    exact (Natural.writeName names name v).bind fun _ => .pure rfl
  | unary id op sign operand =>
    apply (values names operand).bind
    intro v
    rw [UnaryOp.apply_relabel]
    exact .orFail sign _
  | binary id op sign left right =>
    apply (values names left).bind
    intro a
    apply (values names right).bind
    intro b
    rw [BinaryOp.apply_relabel]
    exact .orFail sign _
  | logical id op sign left right =>
    apply (values names left).bind
    intro v
    have decides : op.decides (v.relabel r) = op.decides v := by
      cases op <;> simp only [LogicalOp.decides, Value.relabel_truthy]
    rw [decides]
    split
    · exact .pure rfl
    · exact values names right
  | call id callee arguments closing =>
    apply (values names callee).bind
    intro f
    apply (Natural.valueEach values names arguments).bind
    intro vs
    exact .call runs f vs closing
  | get id object property =>
    apply (values names object).bind
    intro v
    cases v with
    | object id => exact .readProperty id property
    | number _ | string _ | boolean _ | nil | callable _ => exact .fail _ property
  | set id object property value =>
    apply (values names object).bind
    intro v
    cases v with
    | object id =>
      apply (values names value).bind
      intro v
      exact (Natural.setField id property.text v).bind fun _ => .pure rfl
    | number _ | string _ | boolean _ | nil | callable _ => exact .fail _ property

/-- Loops run alike with other labels. -/
def LoopsNatural (r : Relabel) (loop : Scope → Expr → Stmt → Eval Flow) : Prop :=
  ∀ scope condition body, Natural r (Flow.relabel r) (loop scope condition body)
    (loop scope (condition.relabel r) (body.relabel r))

theorem runsNatural_succ (values : ValuesNatural r (evaluate fuel))
    (runs : RunsNatural r (execute fuel)) (loops : LoopsNatural r (rounds fuel)) :
    RunsNatural r (execute (fuel + 1)) := by
  intro scope s
  cases s with
  | expression value => exact (values scope.names value).bind fun _ => .pure rfl
  | print value =>
    apply (values scope.names value).bind
    intro v
    exact (Natural.print v).bind fun _ => .pure rfl
  | var name initial =>
    cases initial with
    | none => exact (Natural.declare scope name.text .nil).bind fun _ => .pure rfl
    | some e =>
      apply (values scope.names e).bind
      intro v
      exact (Natural.declare scope name.text v).bind fun _ => .pure rfl
  | block body => exact .within scope (.runEach runs (.inner scope.names) body)
  | ifThen condition yes =>
    apply (values scope.names condition).bind
    intro v
    rw [Value.relabel_truthy]
    split
    · exact .within scope (runs scope yes)
    · exact .pure rfl
  | ifElse condition yes no =>
    apply (values scope.names condition).bind
    intro v
    rw [Value.relabel_truthy]
    split
    · exact .within scope (runs scope yes)
    · exact .within scope (runs scope no)
  | whileLoop condition body => exact loops scope condition body
  | function declaration =>
    exact (Natural.declareFunction scope declaration).bind fun _ => .pure rfl
  | returns keyword value =>
    cases value with
    | none => exact .pure rfl
    | some e => exact (values scope.names e).bind fun _ => .pure rfl
  | classDecl name superclass methods =>
    exact (Natural.declareClass scope name superclass methods).bind fun _ => .pure rfl

theorem loopsNatural_succ (values : ValuesNatural r (evaluate fuel))
    (runs : RunsNatural r (execute fuel)) (loops : LoopsNatural r (rounds fuel)) :
    LoopsNatural r (rounds (fuel + 1)) := by
  intro scope condition body
  apply (values scope.names condition).bind
  intro v
  rw [Value.relabel_truthy]
  split
  · apply (runs scope body).bind
    intro flow
    cases flow with
    | normal _ => exact loops scope condition body
    | returned v => exact .pure rfl
  · exact .pure rfl

/-- The evaluator does the same with every choice of labels. -/
theorem evaluator_natural (r : Relabel) (fuel : Nat) :
    ValuesNatural r (evaluate fuel) ∧ RunsNatural r (execute fuel) ∧
      LoopsNatural r (rounds fuel) := by
  induction fuel with
  | zero =>
    refine ⟨fun _ _ => ?_, fun _ _ => ?_, fun _ _ _ => ?_⟩ <;> exact Natural.throw rfl
  | succ fuel ih =>
    obtain ⟨values, runs, loops⟩ := ih
    exact ⟨valuesNatural_succ values runs, runsNatural_succ values runs loops,
      loopsNatural_succ values runs loops⟩

theorem interpret_natural (r : Relabel) (fuel : Nat) (program : List Stmt) :
    Natural r id (interpret fuel program) (interpret fuel (Stmt.relabelEach r program)) := by
  apply (Natural.runEach (evaluator_natural r fuel).2.1 .top program).bind
  intro _
  exact .flush

end ScopeScript.Lexical
