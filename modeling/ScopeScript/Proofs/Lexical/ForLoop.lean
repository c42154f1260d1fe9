import ScopeScript.Parse.Statement
import ScopeScript.Proofs.Lexical.Fuel
import ScopeScript.Proofs.Scope.Scoped

/-! A `for` run as it stands, by lexical scoping. Its tree, which is made of blocks and a loop, does
the same: the block around the body and the last clause adds nothing that either could see. -/
namespace ScopeScript

/-- The clauses and the body of a `for`. -/
structure ForParts where
  first : Option Stmt
  condition : Option Expr
  step : Option Expr
  body : Stmt

namespace ForParts

/-- A missing condition is a literal that is always true, numbered `id`. -/
def conditionTree (p : ForParts) (id : ExprId) : Expr :=
  p.condition.getD (.literal id (.boolean true))

/-- The tree that a `for` is turned into. -/
def tree (p : ForParts) (id : ExprId) : Stmt :=
  .forLoop p.first (p.conditionTree id) p.step p.body

end ForParts

namespace Lexical
open ScopeScript.Lexical.Eval

/-- Whether another round follows. Without a condition there is always another one. -/
def holds (fuel : Nat) (names : Names) : Option Expr → Eval Bool
  | none => return true
  | some e => return (← evaluate fuel names e).truthy

def runFirst (fuel : Nat) (scope : Scope) : Option Stmt → Eval Flow
  | none => return .normal scope
  | some s => execute fuel scope s

def runStep (fuel : Nat) (names : Names) : Option Expr → Eval Unit
  | none => return ()
  | some e => do let _ ← evaluate fuel names e

/-- The body, and behind it the last clause, which does not see what the body declares. If the body
returns or fails, the last clause is not come to. -/
def forRound (fuel : Nat) (scope : Scope) (p : ForParts) : Eval Flow := do
  match ← execute fuel scope p.body with
  | .normal _ => do
    runStep fuel scope.names p.step
    return .normal scope
  | .returned v => return .returned v

/-- Rounds in the one scope of the loop, as long as the condition holds and the body does not
return. -/
def forRounds : (fuel : Nat) → Scope → ForParts → Eval Flow
  | 0, _, _ => throw .exhausted
  | fuel + 1, scope, p => do
    if ← holds fuel scope.names p.condition then
      match ← forRound fuel scope p with
      | .normal _ => forRounds fuel scope p
      | .returned v => return .returned v
    else
      return .normal scope

/-- A `for` makes one new scope for its first clause and leaves it at the end. -/
def runFor (fuel : Nat) (scope : Scope) (p : ForParts) : Eval Flow :=
  within scope do
    match ← runFirst fuel (.inner scope.names) p.first with
    | .normal inside => forRounds fuel inside p
    | .returned v => return .returned v

/-! The scope that a statement leaves behind. -/

variable {α : Type} {fuel : Nat} {scope : Scope} {n : Notes} {c : Context}

theorem within_bind (p : Eval α) (f : α → Eval Flow) :
    within scope (p >>= f) = p >>= fun a => within scope (f a) :=
  bind_assoc _ _ _

theorem within_ite {condition : Prop} [Decidable condition] (p q : Eval Flow) :
    within scope (if condition then p else q) =
      if condition then within scope p else within scope q := by
  split <;> rfl

/-- Behind a step that is left, the scope is the one around it. -/
theorem bind_within (p : Eval Flow) (f : Flow → Eval α) :
    (within scope p >>= f) = p >>= fun flow =>
      match flow with
      | .normal _ => f (.normal scope)
      | .returned v => f (.returned v) := by
  rw [within, bind_assoc]
  congr 1
  funext flow
  cases flow <;> rfl

/-- Who does not look at the scope behind a step does not see that it is left. -/
theorem within_then (p : Eval Flow) (f : Flow → Eval α)
    (blind : ∀ one other, f (.normal one) = f (.normal other)) :
    (within scope p >>= f) = p >>= f := by
  rw [bind_within]
  congr 1
  funext flow
  cases flow with
  | normal other => exact blind scope other
  | returned v => rfl

theorem runEach_single (run : Scope → Stmt → Eval Flow) (s : Stmt) :
    runEach run scope [s] = run scope s := by
  rw [runEach]
  conv => rhs; rw [← bind_pure (run scope s)]
  congr 1
  funext flow
  cases flow <;> rfl

theorem within_within (other : Scope) (p : Eval Flow) :
    within scope (within other p) = within scope p :=
  within_then p _ fun _ _ => rfl

/-- Statements that declare nothing see the names of their scope and leave the scope as it was. -/
def Contained (n : Notes) (run : Scope → Stmt → Eval Flow) : Prop :=
  ∀ (scope : Scope) {s : Stmt} {c : Context}, s.isDeclaration = false → s.Scoped n c →
    run scope s = within scope (run (.inner scope.names) s)

def ContainedLoops (n : Notes) (loop : Scope → Expr → Stmt → Eval Flow) : Prop :=
  ∀ (scope : Scope) (condition : Expr) {body : Stmt} {c : Context}, body.isDeclaration = false →
    body.Scoped n c → loop scope condition body =
      within scope (loop (.inner scope.names) condition body)

theorem contained_succ (runs : Contained n (execute fuel)) (loops : ContainedLoops n (rounds fuel)) :
    Contained n (execute (fuel + 1)) := by
  intro scope s c branch agrees
  have inside : (Scope.inner scope.names).names = scope.names := rfl
  conv => lhs; unfold execute
  conv => rhs; arg 2; unfold execute
  cases s with
  | expression _ | print _ => simp only [within_bind]; rfl
  | returns _ value => cases value <;> simp only [within_bind] <;> rfl
  | block body =>
    dsimp only
    rw [within_within, inside]
  | ifThen condition yes =>
    simp only [within_bind, within_ite, within_within]
    rw [runs scope agrees.2.1 agrees.2.2, within_within]
    rfl
  | ifElse condition yes no =>
    obtain ⟨_, ⟨first, yes_agrees⟩, second, no_agrees⟩ := agrees
    simp only [within_bind, within_ite, within_within]
    rw [runs scope first yes_agrees, runs scope second no_agrees, within_within, within_within]
    rfl
  | whileLoop condition body => exact loops scope condition agrees.2.1 agrees.2.2
  | var _ _ | function _ | classDecl _ _ _ => contradiction

theorem containedLoops_succ (runs : Contained n (execute fuel))
    (loops : ContainedLoops n (rounds fuel)) : ContainedLoops n (rounds (fuel + 1)) := by
  intro scope condition body c branch agrees
  have inside : (Scope.inner scope.names).names = scope.names := rfl
  conv => lhs; unfold rounds
  conv => rhs; arg 2; unfold rounds
  simp only [within_bind, within_ite, inside]
  congr 1
  funext v
  congr 1
  rw [runs scope branch agrees, within_then _ _ fun _ _ => rfl]
  congr 1
  funext flow
  cases flow with
  | normal _ => exact loops scope condition branch agrees
  | returned v => rfl

theorem contained (n : Notes) (fuel : Nat) :
    Contained n (execute fuel) ∧ ContainedLoops n (rounds fuel) := by
  induction fuel with
  | zero => exact ⟨fun _ _ _ _ _ => rfl, fun _ _ _ _ _ _ => rfl⟩
  | succ fuel ih => exact ⟨contained_succ ih.1 ih.2, containedLoops_succ ih.1 ih.2⟩

/-! The clauses of a `for` and their trees. -/

variable {p : ForParts} {id : ExprId} {k : Nat}

theorem condition_below (le : fuel ≤ k) {yes no yes' no' : Eval Flow} (taken : Below yes yes')
    (left : Below no no') :
    Below (do if (← evaluate fuel scope.names (p.conditionTree id)).truthy then yes else no)
      (do if ← holds k scope.names p.condition then yes' else no') := by
  unfold ForParts.conditionTree
  cases p.condition with
  | some e =>
    rw [holds, bind_assoc]
    apply (evaluate_below le scope.names e).bind
    intro v
    exact .ite taken left
  | none =>
    cases fuel with
    | zero => exact Below.exhausted _
    | succ fuel =>
      rw [Option.getD_none, evaluate]
      exact taken

theorem below_condition (lt : fuel < k) {yes no yes' no' : Eval Flow} (taken : Below yes yes')
    (left : Below no no') :
    Below (do if ← holds fuel scope.names p.condition then yes else no)
      (do if (← evaluate k scope.names (p.conditionTree id)).truthy then yes' else no') := by
  unfold ForParts.conditionTree
  cases p.condition with
  | some e =>
    rw [holds, bind_assoc]
    apply (evaluate_below (Nat.le_of_lt lt) scope.names e).bind
    intro v
    exact .ite taken left
  | none =>
    cases k with
    | zero => contradiction
    | succ k =>
      rw [Option.getD_none, evaluate]
      exact taken

section
variable (branch : p.body.isDeclaration = false) (agrees : p.body.Scoped n c)
include branch agrees

/-- The body in any scope with the same names, and then the last clause. -/
theorem forRound_eq (fuel : Nat) (scope : Scope) :
    forRound fuel scope p = (do
      match ← execute fuel (.inner scope.names) p.body with
      | .normal _ => do
        runStep fuel scope.names p.step
        return .normal scope
      | .returned v => return .returned v) := by
  rw [forRound, (contained n fuel).1 scope branch agrees, within_then _ _ fun _ _ => rfl]

/-- The block that the tree makes for a body with a last clause. -/
theorem execute_round (fuel : Nat) (scope : Scope) (e : Expr) :
    execute (fuel + 1) scope (.block [p.body, .expression e]) = (do
      match ← execute fuel (.inner scope.names) p.body with
      | .normal _ => within scope (execute fuel (.inner scope.names) (.expression e))
      | .returned v => return .returned v) := by
  have body := (contained n fuel).1 (.inner scope.names) branch agrees
  rw [execute, runEach]
  conv => lhs; rw [body, bind_within, within_bind]
  congr 1
  funext flow
  cases flow with
  | normal _ =>
    dsimp only
    rw [runEach_single]
  | returned v => rfl

theorem round_below (le : fuel ≤ k) :
    Below (execute fuel scope (p.body.forRound p.step)) (forRound k scope p) := by
  rw [forRound_eq branch agrees]
  cases p.step with
  | none =>
    rw [Stmt.forRound, (contained n fuel).1 scope branch agrees]
    apply (execute_below le _ _).bind
    intro flow
    cases flow <;> exact .refl _
  | some e =>
    rw [Stmt.forRound]
    cases fuel with
    | zero => exact Below.exhausted _
    | succ fuel =>
      rw [execute_round branch agrees]
      apply (execute_below (Nat.le_of_succ_le le) _ _).bind
      intro flow
      cases flow with
      | returned v => exact .refl _
      | normal _ =>
        cases fuel with
        | zero => exact Below.exhausted _
        | succ fuel =>
          rw [execute, within_bind, runStep, bind_assoc]
          exact (evaluate_below (by omega) _ e).bind fun _ => .refl _

theorem below_round (le : fuel + 2 ≤ k) :
    Below (forRound fuel scope p) (execute k scope (p.body.forRound p.step)) := by
  obtain ⟨k, rfl⟩ := Nat.exists_eq_add_of_le' le
  rw [forRound_eq branch agrees]
  cases p.step with
  | none =>
    rw [Stmt.forRound, (contained n (k + (fuel + 2))).1 scope branch agrees]
    apply (execute_below (by omega) _ _).bind
    intro flow
    cases flow <;> exact .refl _
  | some e =>
    rw [Stmt.forRound, ← Nat.add_assoc k, execute_round branch agrees]
    apply (execute_below (by omega) _ _).bind
    intro flow
    cases flow with
    | returned v => exact .refl _
    | normal _ =>
      rw [execute, within_bind, runStep, bind_assoc]
      exact (evaluate_below (by omega) _ e).bind fun _ => .refl _

theorem rounds_below (le : fuel ≤ k) :
    Below (rounds fuel scope (p.conditionTree id) (p.body.forRound p.step)) (forRounds k scope p) := by
  induction fuel generalizing k with
  | zero => exact Below.exhausted _
  | succ fuel ih =>
    obtain ⟨k, rfl⟩ : ∃ j, k = j + 1 := ⟨k - 1, by omega⟩
    unfold rounds forRounds
    refine condition_below (by omega) ?_ (.refl _)
    apply (round_below branch agrees (by omega)).bind
    intro flow
    cases flow with
    | normal _ => exact ih (by omega)
    | returned v => exact .refl _

theorem below_rounds (le : fuel + 2 ≤ k) :
    Below (forRounds fuel scope p) (rounds k scope (p.conditionTree id) (p.body.forRound p.step)) := by
  induction fuel generalizing k with
  | zero => exact Below.exhausted _
  | succ fuel ih =>
    obtain ⟨k, rfl⟩ : ∃ j, k = j + 1 := ⟨k - 1, by omega⟩
    unfold forRounds rounds
    refine below_condition (by omega) ?_ (.refl _)
    apply (below_round branch agrees (by omega)).bind
    intro flow
    cases flow with
    | normal _ => exact ih (by omega)
    | returned v => exact .refl _

end

theorem round_scoped (agrees : (p.tree id).Scoped n c) :
    ∃ inside, (p.body.forRound p.step).isDeclaration = false ∧
      (p.body.forRound p.step).Scoped n inside := by
  unfold ForParts.tree Stmt.forLoop at agrees
  cases first : p.first with
  | none =>
    rw [first] at agrees
    exact ⟨c, agrees.2⟩
  | some s =>
    rw [first] at agrees
    exact ⟨_, agrees.2.1.2⟩

theorem body_scoped (agrees : (p.tree id).Scoped n c) : ∃ inside, p.body.Scoped n inside := by
  obtain ⟨inside, _, round⟩ := round_scoped agrees
  cases step : p.step with
  | none =>
    rw [step] at round
    exact ⟨inside, round⟩
  | some e =>
    rw [step] at round
    exact ⟨_, round.1⟩

/-- A `for` and its tree do the same: with enough fuel, each does what the other one does. -/
theorem tree_below (branch : p.body.isDeclaration = false) (agrees : (p.tree id).Scoped n c)
    (fuel : Nat) (scope : Scope) :
    Below (execute fuel scope (p.tree id)) (runFor fuel scope p) := by
  obtain ⟨_, body⟩ := body_scoped agrees
  obtain ⟨_, branch', round⟩ := round_scoped agrees
  cases fuel with
  | zero => exact Below.exhausted _
  | succ fuel =>
    unfold ForParts.tree Stmt.forLoop runFor
    cases p.first with
    | none =>
      dsimp only
      rw [execute, (contained n fuel).2 scope _ branch' round]
      exact (rounds_below branch body (Nat.le_succ _)).within scope
    | some s =>
      dsimp only
      rw [execute, runEach]
      apply Below.within
      apply (execute_below (Nat.le_succ fuel) _ s).bind
      intro flow
      cases flow with
      | returned v => exact .refl _
      | normal inside =>
        dsimp only
        rw [runEach_single]
        cases fuel with
        | zero => exact Below.exhausted _
        | succ fuel =>
          rw [execute]
          exact rounds_below branch body (by omega)

theorem below_tree (branch : p.body.isDeclaration = false) (agrees : (p.tree id).Scoped n c)
    (fuel : Nat) (scope : Scope) :
    Below (runFor fuel scope p) (execute (fuel + 4) scope (p.tree id)) := by
  obtain ⟨_, body⟩ := body_scoped agrees
  obtain ⟨_, branch', round⟩ := round_scoped agrees
  unfold ForParts.tree Stmt.forLoop runFor
  cases p.first with
  | none =>
    dsimp only
    rw [execute, (contained n (fuel + 3)).2 scope _ branch' round]
    exact (below_rounds branch body (by omega)).within scope
  | some s =>
    dsimp only
    rw [execute, runEach]
    apply Below.within
    apply (execute_below (by omega) _ s).bind
    intro flow
    cases flow with
    | returned v => exact .refl _
    | normal inside =>
      dsimp only
      rw [runEach_single, execute]
      exact below_rounds branch body (by omega)

end Lexical
end ScopeScript
