import ScopeScript.Proofs.Frames.Names
import ScopeScript.Proofs.Trace.Evaluate

/-! What holds of all evaluation because it holds of single steps. Evaluation is made of steps that
neither print nor set a field, of printing and of setting fields, the one behind the other. A
relation between traced steps and steps that is closed under these ways to build them relates all
traced evaluation to evaluation. -/
namespace ScopeScript

variable {α β : Type}

def Machine.withSink (m : Machine) (sink : Sink) : Machine := { m with sink }

/-- A field of an object, if it is set. -/
def Machine.field? (m : Machine) (object : ObjectId) (name : String) : Option Value :=
  (m.objects[object]?).bind (·.fields.get? name)

/-- A result with another machine behind it. -/
def onMachineBehind (change : Machine → Machine) :
    EStateM.Result Stop Machine α → EStateM.Result Stop Machine α
  | .ok a m => .ok a (change m)
  | .error stop m => .error stop (change m)

/-- A step that has nothing to do with the sink. -/
def Blind (p : Eval α) : Prop :=
  ∀ m sink, p (m.withSink sink) = onMachineBehind (·.withSink sink) (p m)

/-- A step that neither prints nor sets a field. -/
structure Plain (p : Eval α) : Prop where
  sink : Blind p
  fields : ∀ m object name, (machineBehind (p m)).field? object name = m.field? object name

namespace Plain
variable {p : Eval α} {q : α → Eval β}

theorem pure (a : α) : Plain (Pure.pure a) := ⟨fun _ _ => rfl, fun _ _ _ => rfl⟩

theorem throw (stop : Stop) : Plain (MonadExcept.throw stop : Eval α) :=
  ⟨fun _ _ => rfl, fun _ _ _ => rfl⟩

theorem bind (first : Plain p) (next : ∀ a, Plain (q a)) : Plain (p >>= q) := by
  constructor
  · intro m sink
    have moved := first.sink m sink
    simp only [Bind.bind, EStateM.bind, moved]
    cases p m with
    | ok a m' => exact (next a).sink m' sink
    | error stop m' => rfl
  · intro m object name
    have here := first.fields m object name
    simp only [Bind.bind, EStateM.bind]
    cases ran : p m with
    | error stop m' =>
      rw [ran] at here
      exact here
    | ok a m' =>
      rw [ran] at here
      exact ((next a).fields m' object name).trans here

/-- A step that looks at the machine, but not at its sink. -/
theorem get {q : Machine → Eval β} (apart : ∀ m sink, q (m.withSink sink) = q m)
    (next : ∀ m, Plain (q m)) : Plain (MonadState.get >>= q) := by
  constructor
  · intro m sink
    have moved : (MonadState.get >>= q) (m.withSink sink) =
        q (m.withSink sink) (m.withSink sink) := rfl
    rw [moved, apart]
    exact (next m).sink m sink
  · exact fun m => (next m).fields m

theorem fail (cause : RuntimeCause) (l : Lexeme) : Plain (Eval.fail cause l : Eval α) := .throw _

theorem orFail (l : Lexeme) (result : Except RuntimeCause Value) : Plain (Eval.orFail l result) := by
  cases result with
  | ok v => exact .pure v
  | error cause => exact .fail cause l

theorem orFault (result : Except StoreFault α) : Plain (Eval.orFault result) := by
  cases result with
  | ok a => exact .pure a
  | error fault => exact .throw _

theorem newFrame (frame : Frame Value) : Plain (Eval.newFrame frame) :=
  ⟨fun _ _ => rfl, fun _ _ _ => rfl⟩

theorem define (frame : FrameId) (name : String) (v : Value) : Plain (Eval.define frame name v) :=
  ⟨fun _ _ => rfl, fun _ _ _ => rfl⟩

theorem readClock : Plain Eval.readClock := ⟨fun _ _ => rfl, fun _ _ _ => rfl⟩

/-- A new object has no fields yet. -/
theorem newObject (origin : Class) : Plain (Eval.newObject origin) := by
  refine ⟨fun _ _ => rfl, fun m object name => ?_⟩
  simp only [Eval.newObject, machineBehind, Machine.field?, Array.getElem?_push]
  split
  · next newest =>
    subst newest
    rw [Array.getElem?_eq_none (Nat.le_refl _)]
    rfl
  · rfl

theorem readName (frame : FrameId) (id : ExprId) (name : Lexeme) :
    Plain (Eval.readName frame id name) := by
  refine .get (fun _ _ => rfl) fun m => ?_
  cases m.distances.get? id with
  | some distance => exact .orFault _
  | none =>
    dsimp only
    cases m.store.get? globalFrame name.text with
    | some v => exact .pure v
    | none => exact .fail _ name

theorem writeName (frame : FrameId) (id : ExprId) (name : Lexeme) (v : Value) :
    Plain (Eval.writeName frame id name v) := by
  refine Plain.bind (.get (fun _ _ => rfl) fun m => ?_) fun owner => .define owner name.text v
  cases m.distances.get? id with
  | some distance => exact .orFault _
  | none =>
    dsimp only
    cases m.store.owner? globalFrame name.text with
    | some owner => exact .pure owner
    | none => exact .fail _ name

theorem bindMethod (method : Closure) (object : ObjectId) :
    Plain (Eval.bindMethod method object) :=
  (Plain.newFrame _).bind fun _ => .pure _

theorem readProperty (object : ObjectId) (name : Lexeme) :
    Plain (Eval.readProperty object name) := by
  refine .get (fun _ _ => rfl) fun m => ?_
  cases (m.objects[object]?).bind (·.fields.get? name.text) with
  | some v => exact .pure v
  | none =>
    dsimp only
    cases (m.objects[object]?).bind (·.origin.method? name.text) with
    | some method => exact (Plain.bindMethod method object).bind fun _ => .pure _
    | none => exact .fail _ name

theorem readThis (frame : FrameId) :
    Plain (do Eval.orFault ((← MonadState.get).store.getAt frame 0 thisName)) :=
  .get (fun _ _ => rfl) fun _ => .orFault _

theorem declareClass (frame : FrameId) (name : Lexeme) (superclass : Option Superclass)
    (methods : List FunctionDecl) : Plain (Eval.declareClass frame name superclass methods) := by
  have looked : Plain (Eval.superclassOf frame superclass) := by
    cases superclass with
    | none => exact .pure _
    | some s =>
      apply (Plain.readName frame s.id s.name).bind
      intro v
      split
      · exact .pure _
      · exact .fail _ s.name
  exact (Plain.define frame name.text .nil).bind fun _ => looked.bind fun _ => .define _ _ _

end Plain

namespace Traced

/-- A relation that is kept by the ways in which evaluation is put together. -/
structure Closed (R : ∀ {α : Type}, Traced α → Eval α → Prop) : Prop where
  plain : ∀ {α : Type} {p : Eval α}, Plain p → R (lift p) p
  print : ∀ v, R (print v) (Eval.print v)
  setField : ∀ object name v, R (setField object name v) (Eval.setField object name v)
  bind : ∀ {α β : Type} {p : Traced α} {q : Eval α} {f : α → Traced β} {g : α → Eval β},
    R p q → (∀ a, R (f a) (g a)) → R (p >>= f) (q >>= g)
  mark : ∀ {α : Type} {act : Act} {p : Traced α} {q : Eval α}, act.begins = true → R p q →
    R (mark act >>= fun _ => p) q

namespace Closed
variable {R : ∀ {α : Type}, Traced α → Eval α → Prop} (closed : Closed R)
include closed

theorem pure (a : α) : R (Pure.pure a) (Pure.pure a) := closed.plain (.pure a)

theorem fail (cause : RuntimeCause) (l : Lexeme) :
    R (fail cause l : Traced α) (Eval.fail cause l) :=
  closed.plain (.fail cause l)

theorem valueEach {value : Expr → Traced Value} {value' : Expr → Eval Value}
    (values : ∀ e, R (value e) (value' e)) (es : List Expr) :
    R (valueEach value es) (Eval.valueEach value' es) := by
  induction es with
  | nil => exact closed.pure []
  | cons e rest ih =>
    exact closed.bind (values e) fun v => closed.bind ih fun vs => closed.pure (v :: vs)

theorem runEach {run : Stmt → Traced Flow} {run' : Stmt → Eval Flow}
    (runs : ∀ s, R (run s) (run' s)) (body : List Stmt) :
    R (runEach run body) (Eval.runEach run' body) := by
  induction body with
  | nil => exact closed.pure Flow.normal
  | cons s rest ih =>
    apply closed.bind (runs s)
    intro flow
    cases flow with
    | normal => exact ih
    | returned v => exact closed.pure _

section
variable {run : FrameId → Stmt → Traced Flow} {run' : FrameId → Stmt → Eval Flow}
  (runs : ∀ f s, R (run f s) (run' f s))
include runs

theorem callClosure (f : Closure) (arguments : List Value) :
    R (callClosure run f arguments) (Eval.callClosure run' f arguments) := by
  apply closed.bind (closed.plain (.newFrame _))
  intro frame
  apply closed.mark rfl
  apply closed.bind (closed.runEach (runs frame) f.declaration.body)
  intro flow
  cases f.isInit with
  | true => exact closed.plain (.readThis f.scope)
  | false => cases flow <;> exact closed.pure _

theorem construct (c : Class) (arguments : List Value) :
    R (construct run c arguments) (Eval.construct run' c arguments) := by
  apply closed.bind (closed.plain (.newObject c))
  intro object
  cases c.method? initName with
  | none => exact closed.pure _
  | some method =>
    apply closed.bind (closed.plain (.bindMethod method object))
    intro bound
    exact closed.bind (closed.callClosure runs bound arguments) fun _ => closed.pure _

theorem call (callee : Value) (arguments : List Value) (closing : Lexeme) :
    R (call run callee arguments closing) (Eval.call run' callee arguments closing) := by
  unfold Traced.call Eval.call
  cases callee with
  | number _ | string _ | boolean _ | nil | object _ => exact closed.fail _ closing
  | callable f =>
    dsimp only
    split
    · cases f with
      | native f =>
        cases f
        exact closed.bind (closed.plain .readClock) fun _ => closed.pure _
      | function f => exact closed.callClosure runs f arguments
      | ofClass c => exact closed.construct runs c arguments
    · exact closed.fail _ closing

end

section
variable {fuel : Nat} (values : ∀ f e, R (evaluate fuel f e) (ScopeScript.evaluate fuel f e))
  (runs : ∀ f s, R (execute fuel f s) (ScopeScript.execute fuel f s))
  (loops : ∀ f condition body,
    R (rounds fuel f condition body) (ScopeScript.rounds fuel f condition body))

include values runs in
theorem evaluate_succ (frame : FrameId) (e : Expr) :
    R (evaluate (fuel + 1) frame e) (ScopeScript.evaluate (fuel + 1) frame e) := by
  unfold evaluate ScopeScript.evaluate
  apply closed.mark rfl
  cases e with
  | literal id value => exact closed.pure _
  | group id inner => exact values frame inner
  | var id name | this id name => exact closed.plain (.readName frame id name)
  | assign id name value =>
    apply closed.bind (values frame value)
    intro v
    exact closed.bind (closed.plain (.writeName frame id name v)) fun _ => closed.pure v
  | unary id op sign operand =>
    exact closed.bind (values frame operand) fun _ => closed.plain (.orFail sign _)
  | binary id op sign left right =>
    apply closed.bind (values frame left)
    intro a
    exact closed.bind (values frame right) fun _ => closed.plain (.orFail sign _)
  | logical id op sign left right =>
    apply closed.bind (values frame left)
    intro v
    split
    · exact closed.pure v
    · exact values frame right
  | call id callee arguments closing =>
    apply closed.bind (values frame callee)
    intro f
    apply closed.bind (closed.valueEach (values frame) arguments)
    intro vs
    exact closed.call runs f vs closing
  | get id object property =>
    apply closed.bind (values frame object)
    intro v
    cases v with
    | object i => exact closed.plain (.readProperty i property)
    | number _ | string _ | boolean _ | nil | callable _ => exact closed.fail _ property
  | set id object property value =>
    apply closed.bind (values frame object)
    intro v
    cases v with
    | object i =>
      apply closed.bind (values frame value)
      intro v
      exact closed.bind (closed.setField i property.text v) fun _ => closed.pure v
    | number _ | string _ | boolean _ | nil | callable _ => exact closed.fail _ property

include values runs loops in
theorem execute_succ (frame : FrameId) (s : Stmt) :
    R (execute (fuel + 1) frame s) (ScopeScript.execute (fuel + 1) frame s) := by
  unfold execute ScopeScript.execute
  apply closed.mark rfl
  cases s with
  | expression value => exact closed.bind (values frame value) fun _ => closed.pure _
  | print value =>
    apply closed.bind (values frame value)
    intro v
    exact closed.bind (closed.print v) fun _ => closed.pure _
  | var name initial =>
    have declared (v : Value) : R (do lift (Eval.define frame name.text v); return Flow.normal)
        (do Eval.define frame name.text v; return Flow.normal) :=
      closed.bind (closed.plain (.define frame name.text v)) fun _ => closed.pure _
    cases initial with
    | none => exact closed.bind (closed.pure Value.nil) declared
    | some e => exact closed.bind (values frame e) declared
  | block body =>
    apply closed.bind (closed.plain (.newFrame _))
    intro inner
    exact closed.runEach (runs inner) body
  | ifThen condition yes =>
    apply closed.bind (values frame condition)
    intro v
    split
    · exact runs frame yes
    · exact closed.pure _
  | ifElse condition yes no =>
    apply closed.bind (values frame condition)
    intro v
    split
    · exact runs frame yes
    · exact runs frame no
  | whileLoop condition body => exact loops frame condition body
  | function declaration => exact closed.bind (closed.plain (.define _ _ _)) fun _ => closed.pure _
  | returns keyword value =>
    cases value with
    | none => exact closed.bind (closed.pure Value.nil) fun _ => closed.pure _
    | some e => exact closed.bind (values frame e) fun _ => closed.pure _
  | classDecl name superclass methods =>
    exact closed.bind (closed.plain (.declareClass _ _ _ _)) fun _ => closed.pure _

include values runs loops in
theorem rounds_succ (frame : FrameId) (condition : Expr) (body : Stmt) :
    R (rounds (fuel + 1) frame condition body)
      (ScopeScript.rounds (fuel + 1) frame condition body) := by
  unfold rounds ScopeScript.rounds
  apply closed.bind (values frame condition)
  intro v
  split
  · apply closed.bind (runs frame body)
    intro flow
    cases flow with
    | normal => exact loops frame condition body
    | returned v => exact closed.pure _
  · exact closed.pure _

end

/-- Traced evaluation is related to evaluation, with every amount of fuel. -/
theorem evaluation (fuel : Nat) :
    (∀ f e, R (evaluate fuel f e) (ScopeScript.evaluate fuel f e)) ∧
    (∀ f s, R (execute fuel f s) (ScopeScript.execute fuel f s)) ∧
    ∀ f condition body,
      R (rounds fuel f condition body) (ScopeScript.rounds fuel f condition body) := by
  induction fuel with
  | zero =>
    have spent {α : Type} : R (lift (throw .exhausted) : Traced α) (throw .exhausted) :=
      closed.plain (.throw _)
    exact ⟨fun _ _ => spent, fun _ _ => spent, fun _ _ _ => spent⟩
  | succ fuel ih =>
    obtain ⟨values, runs, loops⟩ := ih
    exact ⟨closed.evaluate_succ values runs, closed.execute_succ values runs loops,
      closed.rounds_succ values runs loops⟩

theorem runProgram (fuel : Nat) (program : List Stmt) :
    R (runProgram fuel program) (ScopeScript.runProgram fuel program) := by
  induction program with
  | nil => exact closed.pure ()
  | cons s rest ih =>
    apply closed.bind ((closed.evaluation fuel).2.1 globalFrame s)
    intro flow
    cases flow with
    | normal => exact ih
    | returned v => exact closed.plain (.throw _)

end Closed

end Traced
end ScopeScript
