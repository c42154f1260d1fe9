import ScopeScript.Proofs.Simulation.Calls

/-! The two evaluators do the same, construct by construct, and with every amount of fuel. -/
namespace ScopeScript
open Lexical (Names Scope)
open World

/-- Expressions are evaluated alike. Evaluation declares nothing in frames that were there. -/
def Evaluates (value : FrameId → Expr → Eval Value)
    (value' : Names → Expr → Lexical.Eval (Value Names)) : Prop :=
  ∀ {w : World} {s : Scopes} {f : FrameId} {names : Names} (e : Expr),
    w.Linked s.locals f names → e.Scoped w.notes s → Sim none w Same (value f e) (value' names e)

/-- Loops are run alike. -/
def Loops (loop : FrameId → Expr → Stmt → Eval Flow)
    (loop' : Scope → Expr → Stmt → Lexical.Eval Lexical.Flow) : Prop :=
  ∀ {w : World} {c : Context} {f : FrameId} {scope : Scope} (condition : Expr) (body : Stmt),
    w.Current c.scopes f scope → (Stmt.whileLoop condition body).Scoped w.notes c →
      Sim none w (SameFlow c.inFunction c.scopes f) (loop f condition body)
        (loop' scope condition body)

variable {w : World} {s : Scopes} {c : Context} {f : FrameId} {names : Names} {scope : Scope}
  {fuel : Nat}

namespace Sim

theorem valueEach {value : FrameId → Expr → Eval Value}
    {value' : Names → Expr → Lexical.Eval (Value Names)} (values : Evaluates value value')
    {arguments : List Expr} (linked : w.Linked s.locals f names)
    (agrees : Expr.ScopedEach w.notes s arguments) :
    Sim none w (fun w' => List.Forall₂ (Same w')) (Eval.valueEach (value f) arguments)
      (Lexical.Eval.valueEach (value' names) arguments) := by
  induction arguments generalizing w with
  | nil => exact .pure .nil
  | cons e rest ih =>
    apply (values e linked agrees.1).bind
    intro w₁ v u grown same
    have rest := ih (linked.mono grown) (Expr.scopedEach_mono grown.extends rest agrees.2)
    apply rest.bind
    intro w₂ vs us later others
    exact .pure (.cons (same.mono later) others)

/-- A variable is declared once its initial value is known. -/
theorem declareValue {x : String} {a : Eval Value} {b : Lexical.Eval (Value Names)}
    (current : w.Current c.scopes f scope) (fresh : c.scopes.Fresh x)
    (valued : Sim none w Same a b) :
    Sim (some f) w (SameFlow c.inFunction (c.scopes.declare x) f)
      (do
        let v ← a
        Eval.define f x v
        Pure.pure .normal)
      (do
        let u ← b
        let scope' ← Lexical.Eval.declare scope x u
        Pure.pure (.normal scope')) := by
  have kept : Sim none w (fun w' v u => Same w' v u ∧ w'.Current c.scopes f scope) a b :=
    valued.imp fun _ _ _ grown same => ⟨same, current.mono grown⟩
  apply kept.widen.bind
  intro _ v u _ kept
  apply (Sim.declare kept.2 fresh kept.1).bind
  intro _ _ _ _ declared
  exact .pure (.normal declared.1)

/-- What declares nothing outside of itself leaves the scope around it as it was. -/
theorem within {a : Eval Flow} {b : Lexical.Eval Lexical.Flow}
    (current : w.Current c.scopes f scope)
    (inside : Sim none w
      (fun w' flow other => ∃ behind g, SameFlow c.inFunction behind g w' flow other) a b) :
    Sim none w (SameFlow c.inFunction c.scopes f) a (Lexical.Eval.within scope b) := by
  rw [← bind_pure a]
  apply inside.bind
  intro w' flow other grown same
  obtain ⟨_, _, same⟩ := same
  cases same with
  | normal _ => exact .pure (.normal (current.mono grown))
  | returned inFunction same => exact .pure (.returned inFunction same)

/-- A branch is a statement and not a declaration. -/
theorem branch {run : FrameId → Stmt → Eval Flow}
    {run' : Scope → Stmt → Lexical.Eval Lexical.Flow} (runs : Runs run run') {body : Stmt}
    (current : w.Current c.scopes f scope) (statement : body.isDeclaration = false)
    (agrees : body.Scoped w.notes c) :
    Sim none w (SameFlow c.inFunction c.scopes f) (run f body)
      (Lexical.Eval.within scope (run' scope body)) := by
  have sim := runs body current agrees
  rw [Stmt.opens, if_neg (by simp [statement])] at sim
  exact .within current (sim.imp fun _ _ _ _ same => ⟨_, _, same⟩)

end Sim

theorem evaluates_succ (values : Evaluates (evaluate fuel) (Lexical.evaluate fuel))
    (runs : Runs (execute fuel) (Lexical.execute fuel)) :
    Evaluates (evaluate (fuel + 1)) (Lexical.evaluate (fuel + 1)) := by
  intro w s f names e linked agrees
  cases e with
  | literal id value => cases value <;> exact .pure (by constructor)
  | group id inner => exact values inner linked agrees
  | var id name | this id name => exact .readName linked agrees
  | assign id name value =>
    apply (values value linked agrees.1).bind
    intro w₁ v u grown same
    have noted := agrees.2.mono grown.extends
    apply (Sim.writeName (linked.mono grown) noted same).bind
    intro _ _ _ later _
    exact .pure (same.mono later)
  | unary id op sign operand =>
    apply (values operand linked agrees).bind
    intro _ v u _ same
    exact .orFail sign (op.same_apply same)
  | binary id op sign left right =>
    apply (values left linked agrees.1).bind
    intro w₁ a a' grown first
    have agrees₁ := right.scoped_mono grown.extends agrees.2
    apply (values right (linked.mono grown) agrees₁).bind
    intro _ b b' later second
    exact .orFail sign (op.same_apply (first.mono later) second)
  | logical id op sign left right =>
    apply (values left linked agrees.1).bind
    intro w₁ v u grown same
    rw [same.decides_eq op]
    split
    · exact .pure same
    · exact values right (linked.mono grown) (right.scoped_mono grown.extends agrees.2)
  | call id callee arguments closing =>
    apply (values callee linked agrees.1).bind
    intro w₁ g g' grown same
    have agrees₁ := Expr.scopedEach_mono grown.extends arguments agrees.2
    apply (Sim.valueEach values (linked.mono grown) agrees₁).bind
    intro _ vs us later given
    exact .call runs (same.mono later) given closing
  | get id object property =>
    apply (values object linked agrees).bind
    intro _ v u _ same
    cases same with
    | object id => exact .readProperty id property
    | number _ | string _ | boolean _ | nil | callable _ => exact .fail _ property
  | set id object property value =>
    apply (values object linked agrees.1).bind
    intro w₁ v u grown same
    cases same with
    | object id =>
      have agrees₁ := value.scoped_mono grown.extends agrees.2
      apply (values value (linked.mono grown) agrees₁).bind
      intro _ v u _ same
      apply (Sim.setField id property.text same).bind
      intro _ _ _ later _
      exact .pure (same.mono later)
    | number _ | string _ | boolean _ | nil | callable _ => exact .fail _ property

theorem runs_succ (values : Evaluates (evaluate fuel) (Lexical.evaluate fuel))
    (runs : Runs (execute fuel) (Lexical.execute fuel))
    (loops : Loops (rounds fuel) (Lexical.rounds fuel)) :
    Runs (execute (fuel + 1)) (Lexical.execute (fuel + 1)) := by
  intro w c f scope s current agrees
  cases s with
  | expression value =>
    apply (values value current.linked agrees).bind
    intro _ _ _ grown _
    exact .pure (.normal (current.mono grown))
  | print value =>
    apply (values value current.linked agrees).bind
    intro w₁ v u grown same
    apply (Sim.print same).bind
    intro _ _ _ later _
    exact .pure (.normal ((current.mono grown).mono later))
  | var name initial =>
    cases initial with
    | none => exact .declareValue current agrees.1 (.pure .nil)
    | some e => exact .declareValue current agrees.1 (values e current.linked agrees.2)
  | block body =>
    refine .within current (Sim.newFrame current.linked fun w₁ g grown inside => ?_)
    have agrees₁ : Stmt.ScopedEach w₁.notes (c.enter []) body :=
      Stmt.scopedEach_mono grown.extends body agrees
    exact (Sim.runEach runs inside agrees₁).imp fun _ _ _ _ same => ⟨_, _, same⟩
  | ifThen condition yes =>
    obtain ⟨condition_agrees, statement, agrees⟩ := agrees
    apply (values condition current.linked condition_agrees).bind
    intro _ v u grown same
    rw [same.truthy_eq]
    split
    · exact .branch runs (current.mono grown) statement (yes.scoped_mono grown.extends agrees)
    · exact .pure (.normal (current.mono grown))
  | ifElse condition yes no =>
    obtain ⟨condition_agrees, ⟨statement, agrees⟩, statement', agrees'⟩ := agrees
    apply (values condition current.linked condition_agrees).bind
    intro _ v u grown same
    rw [same.truthy_eq]
    split
    · exact .branch runs (current.mono grown) statement (yes.scoped_mono grown.extends agrees)
    · exact .branch runs (current.mono grown) statement' (no.scoped_mono grown.extends agrees')
  | whileLoop condition body => exact loops condition body current agrees
  | function declaration =>
    apply (Sim.declareFunction current agrees.1 agrees.2).bind
    intro _ _ _ _ behind
    exact .pure (.normal behind)
  | returns keyword value =>
    cases value with
    | none => exact .pure (.returned agrees.1 .nil)
    | some e =>
      apply (values e current.linked agrees.2).bind
      intro _ _ _ _ same
      exact .pure (.returned agrees.1 same)
  | classDecl name superclass methods =>
    apply (Sim.declareClass current agrees).bind
    intro _ _ _ _ behind
    exact .pure (.normal behind)

theorem loops_succ (values : Evaluates (evaluate fuel) (Lexical.evaluate fuel))
    (runs : Runs (execute fuel) (Lexical.execute fuel))
    (loops : Loops (rounds fuel) (Lexical.rounds fuel)) :
    Loops (rounds (fuel + 1)) (Lexical.rounds (fuel + 1)) := by
  intro w c f scope condition body current agrees
  apply (values condition current.linked agrees.1).bind
  intro w₁ v u grown same
  rw [same.truthy_eq]
  split
  · have current₁ := current.mono grown
    have body_agrees := body.scoped_mono grown.extends agrees.2.2
    have sim := runs body current₁ body_agrees
    rw [Stmt.opens, if_neg (by simp [agrees.2.1])] at sim
    apply sim.bind
    intro w₂ flow other later same
    cases same with
    | normal _ =>
      exact loops condition body (current₁.mono later)
        ((Stmt.whileLoop condition body).scoped_mono (grown.trans later).extends agrees)
    | returned inFunction same => exact .pure (.returned inFunction same)
  · exact .pure (.normal (current.mono grown))

/-- With every amount of fuel, the two evaluators do the same. -/
theorem evaluators_agree (fuel : Nat) :
    Evaluates (evaluate fuel) (Lexical.evaluate fuel) ∧
      Runs (execute fuel) (Lexical.execute fuel) ∧
      Loops (rounds fuel) (Lexical.rounds fuel) := by
  induction fuel with
  | zero =>
    refine ⟨fun _ _ _ => ?_, fun _ _ _ => ?_, fun _ _ _ _ => ?_⟩ <;> exact Sim.throw nofun
  | succ fuel ih =>
    obtain ⟨values, runs, loops⟩ := ih
    exact ⟨evaluates_succ values runs, runs_succ values runs loops,
      loops_succ values runs loops⟩

/-- The top level runs its statements as a body that must not return. -/
theorem runProgram_eq (fuel : Nat) (program : List Stmt) :
    runProgram fuel program = (Eval.runEach (execute fuel globalFrame) program >>= fun flow =>
      match flow with
      | .normal => Pure.pure ()
      | .returned _ => MonadExcept.throw (.fault .topLevelReturn)) := by
  induction program with
  | nil => rfl
  | cons s rest ih =>
    rw [runProgram, Eval.runEach, bind_assoc]
    congr 1
    funext flow
    cases flow with
    | normal => exact ih
    | returned v => rfl

theorem World.Current.eq_top (current : w.Current s globalFrame scope) : scope = .top := by
  generalize here : globalFrame = f at current
  cases current with
  | top _ => rfl
  | inner linked _ => exact absurd here.symm linked.chain.ne_global

theorem World.Current.of_top {f : FrameId} (current : w.Current s f .top) :
    s.locals = [] ∧ ∀ x, x ∈ w.globals ↔ x ∈ s.globals := by
  cases current with
  | top same => exact ⟨rfl, same⟩

/-- The statements of a program at the top level. Nothing there returns. -/
theorem Sim.topLevel (fuel : Nat) {program : List Stmt} {globals : List String}
    (current : w.Current ⟨[], globals⟩ globalFrame .top)
    (agrees : Stmt.ScopedEach w.notes { scopes := ⟨[], globals⟩ } program) :
    Sim (some globalFrame) w
      (fun w' _ flow => flow = .normal .top ∧
        w'.Current (program.foldl Scopes.after ⟨[], globals⟩) globalFrame .top)
      (runProgram fuel program) (Lexical.Eval.runEach (Lexical.execute fuel) .top program) := by
  rw [runProgram_eq, ← bind_pure (Lexical.Eval.runEach (Lexical.execute fuel) .top program)]
  obtain ⟨_, runs, _⟩ := evaluators_agree fuel
  apply (Sim.runEach runs current agrees).bind
  intro w₁ flow other _ same
  cases same with
  | returned inFunction _ => contradiction
  | normal behind =>
    have top := behind.eq_top
    subst top
    exact .pure ⟨rfl, behind⟩

/-- A whole program. -/
theorem Sim.interpret (fuel : Nat) {program : List Stmt} {globals : List String}
    (current : w.Current ⟨[], globals⟩ globalFrame .top)
    (agrees : Stmt.ScopedEach w.notes { scopes := ⟨[], globals⟩ } program) :
    Sim (some globalFrame) w (fun _ _ _ => True)
      (ScopeScript.interpret fuel program) (Lexical.interpret fuel program) :=
  (Sim.topLevel fuel current agrees).bind fun _ _ _ _ _ => .flush

end ScopeScript
