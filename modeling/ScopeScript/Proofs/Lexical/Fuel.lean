import ScopeScript.Proofs.Lexical.Evaluate

/-! More fuel. What does not run out of fuel does the same with more of it, so that it makes sense
to speak of what code does apart from any amount of fuel. -/
namespace ScopeScript.Lexical

variable {α β : Type}

/-- A step that does what another one does, unless it runs out of fuel. -/
def Below (p q : Eval α) : Prop := ∀ m, (∃ m', p m = .error .exhausted m') ∨ q m = p m

namespace Below

theorem refl (p : Eval α) : Below p p := fun _ => .inr rfl

theorem exhausted (q : Eval α) : Below (throw .exhausted) q := fun m => .inl ⟨m, rfl⟩

theorem trans {p q r : Eval α} (first : Below p q) (second : Below q r) : Below p r := by
  intro m
  rcases first m with spent | same
  · exact .inl spent
  · rcases second m with spent | same'
    · rw [same] at spent
      exact .inl spent
    · exact .inr (same'.trans same)

theorem bind {p q : Eval α} {f g : α → Eval β} (first : Below p q)
    (next : ∀ a, Below (f a) (g a)) : Below (p >>= f) (q >>= g) := by
  intro m
  simp only [Bind.bind, EStateM.bind]
  rcases first m with ⟨m', spent⟩ | same
  · rw [spent]
    exact .inl ⟨m', rfl⟩
  · rw [same]
    cases p m with
    | ok a m' => exact next a m'
    | error stop m' => exact .inr rfl

theorem ite {condition : Prop} [Decidable condition] {p q p' q' : Eval α} (yes : Below p p')
    (no : Below q q') : Below (if condition then p else q) (if condition then p' else q') := by
  split
  · exact yes
  · exact no

theorem within {p q : Eval Flow} (scope : Scope) (inside : Below p q) :
    Below (Eval.within scope p) (Eval.within scope q) :=
  inside.bind fun _ => .refl _

theorem valueEach {value value' : Expr → Eval (Value Names)}
    (values : ∀ e, Below (value e) (value' e)) (es : List Expr) :
    Below (Eval.valueEach value es) (Eval.valueEach value' es) := by
  induction es with
  | nil => exact .refl _
  | cons e rest ih => exact (values e).bind fun _ => ih.bind fun _ => .refl _

section
variable {run run' : Scope → Stmt → Eval Flow} (runs : ∀ scope s, Below (run scope s) (run' scope s))
include runs

theorem runEach (scope : Scope) (body : List Stmt) :
    Below (Eval.runEach run scope body) (Eval.runEach run' scope body) := by
  induction body generalizing scope with
  | nil => exact .refl _
  | cons s rest ih =>
    apply (runs scope s).bind
    intro flow
    cases flow with
    | normal scope => exact ih scope
    | returned v => exact .refl _

theorem callClosure (f : Closure Names) (arguments : List (Value Names)) :
    Below (Eval.callClosure run f arguments) (Eval.callClosure run' f arguments) := by
  apply (Below.refl _).bind
  intro scope
  exact (Below.runEach runs scope _).bind fun _ => .refl _

theorem construct (c : Class Names) (arguments : List (Value Names)) :
    Below (Eval.construct run c arguments) (Eval.construct run' c arguments) := by
  apply (Below.refl _).bind
  intro object
  cases c.method? initName with
  | none => exact .refl _
  | some method =>
    apply (Below.refl _).bind
    intro bound
    exact (Below.callClosure runs bound arguments).bind fun _ => .refl _

theorem call (callee : Value Names) (arguments : List (Value Names)) (closing : Lexeme) :
    Below (Eval.call run callee arguments closing) (Eval.call run' callee arguments closing) := by
  cases callee with
  | number _ | string _ | boolean _ | nil | object _ => exact .refl _
  | callable f =>
    apply Below.ite _ (.refl _)
    cases f with
    | native f => exact .refl _
    | function f => exact Below.callClosure runs f arguments
    | ofClass c => exact Below.construct runs c arguments

end
end Below

/-! One unit of fuel more, construct by construct. -/

section
variable {fuel : Nat} (values : ∀ names e, Below (evaluate fuel names e) (evaluate (fuel + 1) names e))
  (runs : ∀ scope s, Below (execute fuel scope s) (execute (fuel + 1) scope s))
  (loops : ∀ scope condition body,
    Below (rounds fuel scope condition body) (rounds (fuel + 1) scope condition body))

include values runs in
theorem evaluate_below_succ (names : Names) (e : Expr) :
    Below (evaluate (fuel + 1) names e) (evaluate (fuel + 2) names e) := by
  conv => lhs; unfold evaluate
  conv => rhs; unfold evaluate
  cases e with
  | literal _ _ | var _ _ | this _ _ => exact .refl _
  | group id inner => exact values names inner
  | assign id name value => exact (values names value).bind fun _ => .refl _
  | unary id op sign operand => exact (values names operand).bind fun _ => .refl _
  | binary id op sign left right =>
    exact (values names left).bind fun _ => (values names right).bind fun _ => .refl _
  | logical id op sign left right =>
    exact (values names left).bind fun _ => .ite (.refl _) (values names right)
  | call id callee arguments closing =>
    apply (values names callee).bind
    intro f
    apply (Below.valueEach (values names) arguments).bind
    intro vs
    exact .call runs f vs closing
  | get id object property => exact (values names object).bind fun _ => .refl _
  | set id object property value =>
    apply (values names object).bind
    intro v
    cases v with
    | object _ => exact (values names value).bind fun _ => .refl _
    | number _ | string _ | boolean _ | nil | callable _ => exact .refl _

include values runs loops in
theorem execute_below_succ (scope : Scope) (s : Stmt) :
    Below (execute (fuel + 1) scope s) (execute (fuel + 2) scope s) := by
  conv => lhs; unfold execute
  conv => rhs; unfold execute
  cases s with
  | expression value | print value => exact (values scope.names value).bind fun _ => .refl _
  | var name initial | returns keyword initial =>
    cases initial with
    | none => exact .refl _
    | some e => exact (values scope.names e).bind fun _ => .refl _
  | block body => exact (Below.runEach runs _ body).within scope
  | ifThen condition yes =>
    exact (values scope.names condition).bind fun _ => .ite ((runs scope yes).within scope) (.refl _)
  | ifElse condition yes no =>
    exact (values scope.names condition).bind fun _ =>
      .ite ((runs scope yes).within scope) ((runs scope no).within scope)
  | whileLoop condition body => exact loops scope condition body
  | function _ | classDecl _ _ _ => exact .refl _

include values runs loops in
theorem rounds_below_succ (scope : Scope) (condition : Expr) (body : Stmt) :
    Below (rounds (fuel + 1) scope condition body) (rounds (fuel + 2) scope condition body) := by
  conv => lhs; unfold rounds
  conv => rhs; unfold rounds
  refine (values scope.names condition).bind fun v => .ite ?_ (.refl _)
  apply (runs scope body).bind
  intro flow
  cases flow with
  | normal _ => exact loops scope condition body
  | returned v => exact .refl _

end

theorem below_succ (fuel : Nat) :
    (∀ names e, Below (evaluate fuel names e) (evaluate (fuel + 1) names e)) ∧
    (∀ scope s, Below (execute fuel scope s) (execute (fuel + 1) scope s)) ∧
    ∀ scope condition body,
      Below (rounds fuel scope condition body) (rounds (fuel + 1) scope condition body) := by
  induction fuel with
  | zero => exact ⟨fun _ _ => .exhausted _, fun _ _ => .exhausted _, fun _ _ _ => .exhausted _⟩
  | succ fuel ih =>
    obtain ⟨values, runs, loops⟩ := ih
    exact ⟨evaluate_below_succ values runs, execute_below_succ values runs loops,
      rounds_below_succ values runs loops⟩

/-- A family of steps that only does better with more fuel. -/
theorem Below.of_le {p : Nat → Eval α} (more : ∀ fuel, Below (p fuel) (p (fuel + 1))) {n k : Nat}
    (le : n ≤ k) : Below (p n) (p k) := by
  induction le with
  | refl => exact .refl _
  | step _ ih => exact ih.trans (more _)

theorem evaluate_below {n k : Nat} (le : n ≤ k) (names : Names) (e : Expr) :
    Below (evaluate n names e) (evaluate k names e) :=
  .of_le (p := fun n => evaluate n names e) (fun fuel => (below_succ fuel).1 names e) le

theorem execute_below {n k : Nat} (le : n ≤ k) (scope : Scope) (s : Stmt) :
    Below (execute n scope s) (execute k scope s) :=
  .of_le (p := fun n => execute n scope s) (fun fuel => (below_succ fuel).2.1 scope s) le

end ScopeScript.Lexical
