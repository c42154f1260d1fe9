import ScopeScript.Proofs.Simulation.Session
import ScopeScript.Proofs.Trace.Session

/-! The moments of a run beside the lexical machine. Whenever a statement is about to be run, there
is a lexical machine that is the same to it, and the statement is run in the scope that the static
checks have seen it in. -/
namespace ScopeScript
open Lexical (Names Scope)
open World

variable {α β γ : Type} {w : World} {opened : Option FrameId} {s : Scopes} {c : Context}
  {f : FrameId} {names : Names} {scope : Scope} {fuel : Nat}

namespace Sim

/-- A new frame with nothing in it. -/
theorem emptyFrame (linked : w.Linked s.locals f names) :
    Sim none w (fun w' g _ => w'.Current (s.enter []) g (.inner names))
      (Eval.newFrame { enclosing := some f }) (Pure.pure ()) := by
  rw [← bind_pure (Eval.newFrame _)]
  apply Sim.newFrame linked
  intro w' g _ current
  exact .pure current

/-- A new frame with the parameters of a function. -/
theorem paramFrame {params : List Lexeme} {arguments : List Value} {others : List (Value Names)}
    (linked : w.Linked s.locals f names) (fresh : (s.enter []).FreshParams params)
    (same : List.Forall₂ (Same w) arguments others) (enough : arguments.length = params.length) :
    Sim none w (fun w' g scope => w'.Current ((s.enter []).declareParams params) g scope)
      (Eval.newFrame { bindings := .ofList ((params.map (·.text)).zip arguments)
                       enclosing := some f })
      (Lexical.Eval.declareEach (.inner names) ((params.map (·.text)).zip others)) := by
  rw [← bind_pure (Eval.newFrame _), Eval.newFrame_ofList]
  apply Sim.newFrame linked
  intro w₁ g grown current
  rw [← bind_pure (Lexical.Eval.declareEach _ _)]
  apply (Sim.declareEach current fresh (same.imp fun _ _ same => same.mono grown) enough).bind
  intro _ _ _ _ declared
  exact .pure declared

end Sim

/-- A statement that is about to be run is run alike on some lexical machine. -/
def Moment.Mirrored (moment : Moment) : Prop :=
  ∀ f s, moment.act = .statement f s → ∃ (w : World) (l : Lexical.Machine) (c : Context)
    (scope : Scope), w.Mirrors moment.machine l ∧ w.Current c.scopes f scope ∧ s.Scoped w.notes c

namespace Traced

/-- All moments of a step are mirrored if the machine is at its start. -/
def Mirrored (w : World) (p : Traced α) : Prop :=
  ∀ m l, w.Mirrors m l → ∀ moment ∈ p.moments m, moment.Mirrored

/-- A step inside which no statement is run. -/
def Flat (p : Traced α) : Prop := ∀ m, ∀ moment ∈ p.moments m, ∀ f s, moment.act ≠ .statement f s

theorem flat_lift (p : Eval α) : Flat (lift p) := fun _ => List.forall_mem_nil _

theorem flat_mark {act : Act} (other : ∀ f s, act ≠ .statement f s) : Flat (mark act) := by
  intro m moment member
  obtain rfl := List.mem_singleton.mp member
  exact other

theorem Flat.bind {p : Traced α} {next : α → Traced β} (first : Flat p) (rest : ∀ a, Flat (next a)) :
    Flat (p >>= next) := by
  intro m moment member
  rw [moments_bind] at member
  rcases List.mem_append.mp member with here | later
  · exact first m moment here
  · cases ran : p.step m with
    | error stop m' =>
      rw [ran] at later
      contradiction
    | ok a m' =>
      rw [ran] at later
      exact rest a m' moment later

theorem flat_print (v : Value) : Flat (print v) :=
  (flat_mark fun _ _ => Act.noConfusion).bind fun _ => flat_lift _

theorem flat_setField (object : ObjectId) (name : String) (v : Value) :
    Flat (setField object name v) :=
  (flat_mark fun _ _ => Act.noConfusion).bind fun _ => flat_lift _

namespace Mirrored
variable {p : Traced α} {next : α → Traced β}

theorem of_flat (flat : Flat p) : Mirrored w p := by
  intro m _ _ moment member f s begun
  exact absurd begun (flat m moment member f s)

theorem bind {R : World → α → γ → Prop} {b : Lexical.Eval γ} (first : Mirrored w p)
    (sim : Sim opened w R p.step b)
    (behind : ∀ w' a u, w.Grows opened w' → R w' a u → Mirrored w' (next a)) :
    Mirrored w (p >>= next) := by
  intro m l mirrors moment member
  rw [moments_bind] at member
  rcases List.mem_append.mp member with here | later
  · exact first m l mirrors moment here
  · have met := sim m l mirrors
    cases ran : p.step m with
    | error stop m' =>
      rw [ran] at later
      contradiction
    | ok a m' =>
      rw [ran] at later met
      cases other : b l with
      | error _ _ =>
        rw [other] at met
        contradiction
      | ok u l' =>
        rw [other] at met
        obtain ⟨w', reached, mirrors', related⟩ := met
        exact behind w' a u reached.grows related m' l' mirrors' moment later

/-- What follows a step and runs no statements need not know what the step did. -/
theorem before (first : Mirrored w p) (flat : ∀ a, Flat (next a)) : Mirrored w (p >>= next) := by
  intro m l mirrors moment member
  rw [moments_bind] at member
  rcases List.mem_append.mp member with here | later
  · exact first m l mirrors moment here
  · cases ran : p.step m with
    | error stop m' =>
      rw [ran] at later
      contradiction
    | ok a m' =>
      rw [ran] at later
      exact fun f s begun => absurd begun (flat a m' moment later f s)

/-- A moment that is told and does not change the machine. -/
theorem marked {act : Act} (told : ∀ m l, w.Mirrors m l → Moment.Mirrored ⟨act, m⟩)
    (rest : Mirrored w p) : Mirrored w (mark act >>= fun _ => p) := by
  intro m l mirrors moment member
  rcases List.mem_cons.mp member with rfl | later
  · exact told m l mirrors
  · exact rest m l mirrors moment later

end Mirrored

/-! The evaluators, with what is known of their steps. -/

def MirrorsValues (value : FrameId → Expr → Traced Value) : Prop :=
  ∀ {w : World} {s : Scopes} {f : FrameId} {names : Names} (e : Expr),
    w.Linked s.locals f names → e.Scoped w.notes s → Mirrored w (value f e)

def MirrorsRuns (run : FrameId → Stmt → Traced Flow) : Prop :=
  ∀ {w : World} {c : Context} {f : FrameId} {scope : Scope} (s : Stmt),
    w.Current c.scopes f scope → s.Scoped w.notes c → Mirrored w (run f s)

def MirrorsLoops (loop : FrameId → Expr → Stmt → Traced Flow) : Prop :=
  ∀ {w : World} {c : Context} {f : FrameId} {scope : Scope} (condition : Expr) (body : Stmt),
    w.Current c.scopes f scope → (Stmt.whileLoop condition body).Scoped w.notes c →
      Mirrored w (loop f condition body)

theorem evaluate_sim (linked : w.Linked s.locals f names) {e : Expr} (agrees : e.Scoped w.notes s) :
    Sim none w Same (evaluate fuel f e).step (Lexical.evaluate fuel names e) := by
  rw [step_evaluate]
  exact (evaluators_agree fuel).1 e linked agrees

theorem valueEach_sim (linked : w.Linked s.locals f names) {es : List Expr}
    (agrees : Expr.ScopedEach w.notes s es) :
    Sim none w (fun w' => List.Forall₂ (Same w')) (valueEach (evaluate fuel f) es).step
      (Lexical.Eval.valueEach (Lexical.evaluate fuel names) es) := by
  rw [step_closed.valueEach (step_evaluate fuel f)]
  exact Sim.valueEach (evaluators_agree fuel).1 linked agrees

theorem execute_sim (current : w.Current c.scopes f scope) {s : Stmt} (agrees : s.Scoped w.notes c) :
    Sim (some f) w (SameFlow c.inFunction (c.scopes.after s) f) (execute fuel f s).step
      (Lexical.execute fuel scope s) := by
  rw [step_execute]
  have sim := (evaluators_agree fuel).2.1 s current agrees
  unfold Stmt.opens at sim
  split at sim
  · exact sim
  · exact sim.widen

namespace Mirrored

theorem valueEach (values : MirrorsValues (evaluate fuel)) {es : List Expr}
    (linked : w.Linked s.locals f names) (agrees : Expr.ScopedEach w.notes s es) :
    Mirrored w (valueEach (evaluate fuel f) es) := by
  induction es generalizing w with
  | nil => exact .of_flat (flat_lift _)
  | cons e rest ih =>
    apply (values e linked agrees.1).bind (evaluate_sim linked agrees.1)
    intro w₁ v u grown _
    have rest := ih (linked.mono grown) (Expr.scopedEach_mono grown.extends rest agrees.2)
    exact rest.before fun _ => flat_lift _

variable (runs : MirrorsRuns (execute fuel))
include runs

theorem runEach {body : List Stmt} (current : w.Current c.scopes f scope)
    (agrees : Stmt.ScopedEach w.notes c body) : Mirrored w (runEach (execute fuel f) body) := by
  induction body generalizing w c scope with
  | nil => exact .of_flat (flat_lift _)
  | cons s rest ih =>
    apply (runs s current agrees.1).bind (execute_sim current agrees.1)
    intro w' flow other grown same
    cases same with
    | normal behind => exact ih behind (Stmt.scopedEach_mono grown.extends rest agrees.2)
    | returned _ _ => exact .of_flat (flat_lift _)

theorem callClosure {g : Closure} {g' : Closure Names} (same : SameFunction w g g')
    {arguments : List Value} {others : List (Value Names)}
    (given : List.Forall₂ (Same w) arguments others) (enough : arguments.length = g.arity) :
    Mirrored w (callClosure (execute fuel) g arguments) := by
  obtain ⟨_, _, c, linked, agrees, _⟩ := same
  obtain ⟨⟨name, params, body⟩, closed, isInit⟩ := g
  apply (Mirrored.of_flat (flat_lift _)).bind (Sim.paramFrame linked agrees.1 given enough)
  intro w₁ frame scope grown current
  apply Mirrored.marked fun _ _ _ _ _ => Act.noConfusion
  have agrees₁ : Stmt.ScopedEach w₁.notes (c.functionBody params) body :=
    Stmt.scopedEach_mono grown.extends body agrees.2
  apply (Mirrored.runEach runs current agrees₁).before
  intro flow
  cases isInit with
  | true => exact flat_lift _
  | false => cases flow <;> exact flat_lift _

theorem construct {k : Class} {k' : Class Names} (same : SameClass w k k')
    {arguments : List Value} {others : List (Value Names)}
    (given : List.Forall₂ (Same w) arguments others) (enough : arguments.length = k.arity) :
    Mirrored w (construct (execute fuel) k arguments) := by
  have made : Sim none w (fun _ i j => i = j) (Eval.newObject k) (Lexical.Eval.newObject k') :=
    Sim.newObject same
  apply (Mirrored.of_flat (flat_lift _)).bind made
  intro w₁ object _ grown _
  rcases same.method? initName with ⟨left, _⟩ | ⟨g, g', left, _, method⟩
  · rw [left]
    exact .of_flat (flat_lift _)
  · rw [left]
    rw [Class.arity, left] at enough
    apply (Mirrored.of_flat (flat_lift _)).bind (Sim.bindMethod (method.mono grown) object)
    intro w₂ b b' grown₂ bound
    have given₂ := given.imp fun _ _ same => (same.mono grown).mono grown₂
    have declared : b.arity = g.arity := by rw [Closure.arity, Closure.arity, bound.2]
    have entered := Mirrored.callClosure runs bound.1 given₂ (enough.trans declared.symm)
    exact entered.before fun _ => flat_lift _

theorem call {callee : Value} {callee' : Value Names} (same : Same w callee callee')
    {arguments : List Value} {others : List (Value Names)}
    (given : List.Forall₂ (Same w) arguments others) (closing : Lexeme) :
    Mirrored w (call (execute fuel) callee arguments closing) := by
  unfold Traced.call
  cases same with
  | number _ | string _ | boolean _ | nil | object _ => exact .of_flat (flat_lift _)
  | callable same =>
    dsimp only
    split
    · next enough =>
      cases same with
      | native g =>
        cases g
        exact .of_flat ((flat_lift _).bind fun _ => flat_lift _)
      | function same => exact Mirrored.callClosure runs same given enough
      | ofClass same => exact Mirrored.construct runs same given enough
    · exact .of_flat (flat_lift _)

end Mirrored

theorem mirrorsValues_succ (values : MirrorsValues (evaluate fuel))
    (runs : MirrorsRuns (execute fuel)) : MirrorsValues (evaluate (fuel + 1)) := by
  intro w s f names e linked agrees
  unfold evaluate
  apply Mirrored.marked fun _ _ _ _ _ => Act.noConfusion
  cases e with
  | literal _ _ | var _ _ | this _ _ => exact .of_flat (flat_lift _)
  | group id inner => exact values inner linked agrees
  | assign id name value =>
    exact (values value linked agrees.1).before fun _ => (flat_lift _).bind fun _ => flat_lift _
  | unary id op sign operand => exact (values operand linked agrees).before fun _ => flat_lift _
  | binary id op sign left right =>
    apply (values left linked agrees.1).bind (evaluate_sim linked agrees.1)
    intro w₁ _ _ grown _
    have second := values right (linked.mono grown) (right.scoped_mono grown.extends agrees.2)
    exact second.before fun _ => flat_lift _
  | logical id op sign left right =>
    apply (values left linked agrees.1).bind (evaluate_sim linked agrees.1)
    intro w₁ v _ grown _
    split
    · exact .of_flat (flat_lift _)
    · exact values right (linked.mono grown) (right.scoped_mono grown.extends agrees.2)
  | call id callee arguments closing =>
    apply (values callee linked agrees.1).bind (evaluate_sim linked agrees.1)
    intro w₁ g g' grown same
    have linked₁ := linked.mono grown
    have agrees₁ := Expr.scopedEach_mono grown.extends arguments agrees.2
    apply (Mirrored.valueEach values linked₁ agrees₁).bind (valueEach_sim linked₁ agrees₁)
    intro _ vs us later given
    exact .call runs (same.mono later) given closing
  | get id object property =>
    apply (values object linked agrees).before
    intro v
    cases v <;> exact flat_lift _
  | set id object property value =>
    apply (values object linked agrees.1).bind (evaluate_sim linked agrees.1)
    intro w₁ v _ grown _
    cases v with
    | object i =>
      have second := values value (linked.mono grown) (value.scoped_mono grown.extends agrees.2)
      exact second.before fun _ => (flat_setField _ _ _).bind fun _ => flat_lift _
    | number _ | string _ | boolean _ | nil | callable _ => exact .of_flat (flat_lift _)

theorem mirrorsRuns_succ (values : MirrorsValues (evaluate fuel)) (runs : MirrorsRuns (execute fuel))
    (loops : MirrorsLoops (rounds fuel)) : MirrorsRuns (execute (fuel + 1)) := by
  intro w c f scope s current agrees
  unfold execute
  apply Mirrored.marked
  · -- this is the statement that is told
    rintro m l mirrors _ _ ⟨⟩
    exact ⟨w, l, c, scope, mirrors, current, agrees⟩
  cases s with
  | expression value => exact (values value current.linked agrees).before fun _ => flat_lift _
  | print value =>
    exact (values value current.linked agrees).before fun v =>
      (flat_print v).bind fun _ => flat_lift _
  | var name initial =>
    cases initial with
    | none => exact .of_flat ((flat_lift _).bind fun _ => (flat_lift _).bind fun _ => flat_lift _)
    | some e =>
      exact (values e current.linked agrees.2).before fun _ =>
        (flat_lift _).bind fun _ => flat_lift _
  | block body =>
    apply (Mirrored.of_flat (flat_lift _)).bind (Sim.emptyFrame current.linked)
    intro w₁ g _ grown inside
    have agrees₁ : Stmt.ScopedEach w₁.notes (c.enter []) body :=
      Stmt.scopedEach_mono grown.extends body agrees
    exact .runEach runs inside agrees₁
  | ifThen condition yes =>
    obtain ⟨condition_agrees, _, agrees⟩ := agrees
    apply (values condition current.linked condition_agrees).bind
      (evaluate_sim current.linked condition_agrees)
    intro _ v _ grown _
    split
    · exact runs yes (current.mono grown) (yes.scoped_mono grown.extends agrees)
    · exact .of_flat (flat_lift _)
  | ifElse condition yes no =>
    obtain ⟨condition_agrees, ⟨_, agrees⟩, _, agrees'⟩ := agrees
    apply (values condition current.linked condition_agrees).bind
      (evaluate_sim current.linked condition_agrees)
    intro _ v _ grown _
    split
    · exact runs yes (current.mono grown) (yes.scoped_mono grown.extends agrees)
    · exact runs no (current.mono grown) (no.scoped_mono grown.extends agrees')
  | whileLoop condition body => exact loops condition body current agrees
  | function _ | classDecl _ _ _ => exact .of_flat ((flat_lift _).bind fun _ => flat_lift _)
  | returns keyword value =>
    cases value with
    | none => exact .of_flat ((flat_lift _).bind fun _ => flat_lift _)
    | some e => exact (values e current.linked agrees.2).before fun _ => flat_lift _

theorem mirrorsLoops_succ (values : MirrorsValues (evaluate fuel))
    (runs : MirrorsRuns (execute fuel)) (loops : MirrorsLoops (rounds fuel)) :
    MirrorsLoops (rounds (fuel + 1)) := by
  intro w c f scope condition body current agrees
  unfold rounds
  apply (values condition current.linked agrees.1).bind (evaluate_sim current.linked agrees.1)
  intro w₁ v _ grown _
  split
  · have current₁ := current.mono grown
    have agrees₁ := body.scoped_mono grown.extends agrees.2.2
    -- the body is a statement, so the scope behind it is the one around the loop
    have sim := (evaluators_agree fuel).2.1 body current₁ agrees₁
    rw [Stmt.opens, if_neg (by simp [agrees.2.1]), ← step_execute] at sim
    apply (runs body current₁ agrees₁).bind sim
    intro w₂ flow _ later same
    cases same with
    | normal _ =>
      exact loops condition body (current₁.mono later)
        ((Stmt.whileLoop condition body).scoped_mono (grown.trans later).extends agrees)
    | returned _ _ => exact .of_flat (flat_lift _)
  · exact .of_flat (flat_lift _)

theorem evaluation_mirrored (fuel : Nat) : MirrorsValues (evaluate fuel) ∧
    MirrorsRuns (execute fuel) ∧ MirrorsLoops (rounds fuel) := by
  induction fuel with
  | zero =>
    refine ⟨fun _ _ _ => ?_, fun _ _ _ => ?_, fun _ _ _ _ => ?_⟩ <;> exact .of_flat (flat_lift _)
  | succ fuel ih =>
    obtain ⟨values, runs, loops⟩ := ih
    exact ⟨mirrorsValues_succ values runs, mirrorsRuns_succ values runs loops,
      mirrorsLoops_succ values runs loops⟩

theorem Mirrored.interpret {program : List Stmt} (current : w.Current c.scopes globalFrame scope)
    (agrees : Stmt.ScopedEach w.notes c program) : Mirrored w (interpret fuel program) := by
  refine Mirrored.before ?_ fun _ => flat_lift _
  induction program generalizing w c scope with
  | nil => exact .of_flat (flat_lift _)
  | cons s rest ih =>
    apply ((evaluation_mirrored fuel).2.1 s current agrees.1).bind (execute_sim current agrees.1)
    intro w' flow _ grown same
    cases same with
    | normal behind => exact ih behind (Stmt.scopedEach_mono grown.extends rest agrees.2)
    | returned _ _ => exact .of_flat (flat_lift _)

end Traced

/-- Every moment of a run, after any history. -/
theorem Session.Mirrors.trace {s : Session} {t : Lexical.Session} (mirrors : s.Mirrors t) (fuel : Nat)
    (source : String) : ∀ moment ∈ s.trace fuel source, moment.Mirrored := by
  cases checked : checkSource s.machine.globalNames s.nextId source with
  | mk result next =>
    cases result with
    | error errors =>
      rw [trace_of_errors checked]
      exact List.forall_mem_nil _
    | ok program =>
      obtain ⟨w, machines, _, current, agrees, _⟩ := mirrors.passed checked
      rw [trace_of_checked checked]
      exact Traced.Mirrored.interpret current agrees _ _ machines

end ScopeScript
