import ScopeScript.Proofs.Frames.Heap
import ScopeScript.Proofs.Operators

/-! Evaluation keeps the heap in shape: expressions, statements and calls, on every exit and with
every amount of fuel. -/
namespace ScopeScript

variable {m m' : Machine} {f : FrameId}

/-- A frame is there for good. -/
theorem Machine.Grows.inside (grown : m.Grows m') (inside : f < m.store.frames.size) :
    f < m'.store.frames.size := Nat.lt_of_lt_of_le inside grown.frames

/-! Operators make values that refer to nothing. -/

theorem Value.live_of_isScalar {v : Value} (scalar : v.isScalar = true) : v.Live m := by
  cases v with
  | number _ | string _ | boolean _ | nil => trivial
  | callable _ | object _ => contradiction

theorem Literal.live_value (l : Literal) : (l.value : Value).Live m := by cases l <;> trivial

theorem UnaryOp.live_apply {op : UnaryOp} {v result : Value} (applied : op.apply v = .ok result) :
    result.Live m := Value.live_of_isScalar (isScalar_apply applied)

theorem BinaryOp.live_apply {op : BinaryOp} {left right result : Value}
    (applied : op.apply left right = .ok result) : result.Live m :=
  Value.live_of_isScalar (isScalar_apply applied)

/-- What was noted or printed and what the clock has shown are not part of the heap. -/
theorem Machine.Sound.apart (sound : m.Sound) (store : m'.store = m.store)
    (objects : m'.objects = m.objects) : m'.Sound := by
  obtain ⟨store', objects', _, _, _⟩ := m'
  cases store
  cases objects
  exact ⟨sound.older, sound.frames, fun i o there =>
    ⟨(sound.objects i o there).origin, (sound.objects i o there).fields⟩⟩

theorem Machine.Grows.apart (store : m'.store = m.store) (objects : m'.objects = m.objects)
    (distances : m'.distances = m.distances) : m.Grows m' where
  frames := Nat.le_of_eq (by rw [store])
  enclosing f _ := by rw [store]
  names f _ := by rw [store]; exact fun _ member => member
  objects := by rw [objects]; exact (Machine.Grows.refl m).objects
  distances := distances

namespace Keeps

theorem readClock : Keeps m Eval.readClock fun _ _ => True :=
  fun sound => ⟨sound.apart rfl rfl, .apart rfl rfl rfl, trivial⟩

theorem print (v : Value) : Keeps m (Eval.print v) fun _ _ => True := by
  intro sound
  unfold Eval.print
  dsimp only
  split
  · exact ⟨sound.apart rfl rfl, .apart rfl rfl rfl, trivial⟩
  · exact ⟨sound.apart rfl rfl, .apart rfl rfl rfl⟩

end Keeps

/-! Calls. -/

/-- A value that is returned is live. -/
def Flow.Live (m : Machine) : Flow → Prop
  | .normal => True
  | .returned v => v.Live m

/-- Statements are run in any frame that is there. -/
def KeepsRuns (run : FrameId → Stmt → Eval Flow) : Prop :=
  ∀ {m : Machine} {f : FrameId} (s : Stmt), f < m.store.frames.size →
    Keeps m (run f s) fun m' flow => flow.Live m'

def KeepsValues (value : FrameId → Expr → Eval Value) : Prop :=
  ∀ {m : Machine} {f : FrameId} (e : Expr), f < m.store.frames.size →
    Keeps m (value f e) fun m' v => v.Live m'

namespace Keeps

theorem valueEach {value : FrameId → Expr → Eval Value} (values : KeepsValues value)
    (es : List Expr) (inside : f < m.store.frames.size) :
    Keeps m (Eval.valueEach (value f) es) fun m' vs => ∀ v ∈ vs, v.Live m' := by
  induction es generalizing m with
  | nil => exact .pure nofun
  | cons e rest ih =>
    apply (values e inside).bind
    intro m₁ v grown first
    apply (ih (grown.inside inside)).bind
    intro m₂ vs later others
    exact .pure (List.forall_mem_cons.mpr ⟨first.mono later, others⟩)

variable {run : FrameId → Stmt → Eval Flow} (runs : KeepsRuns run)
include runs

theorem runEach (body : List Stmt) (inside : f < m.store.frames.size) :
    Keeps m (Eval.runEach (run f) body) fun m' flow => flow.Live m' := by
  induction body generalizing m with
  | nil => exact .pure trivial
  | cons s rest ih =>
    apply (runs s inside).bind
    intro m₁ flow grown ended
    cases flow with
    | normal => exact ih (grown.inside inside)
    | returned v => exact .pure ended

theorem callClosure {g : Closure} {arguments : List Value} (live : g.Live m)
    (given : ∀ v ∈ arguments, v.Live m) :
    Keeps m (Eval.callClosure run g arguments) fun m' v => v.Live m' := by
  have params : ∀ entry ∈ (g.declaration.params.map (·.text)).zip arguments, entry.2.Live m :=
    fun entry member => given entry.2 (List.of_mem_zip member).2
  refine Keeps.bind (.newFrame ?_ (Table.live_ofList params)) fun m₁ frame _ inside => ?_
  · rintro _ ⟨⟩
    exact live
  apply (Keeps.runEach runs g.declaration.body inside).bind
  intro m₂ flow _ ended
  split
  · -- an initializer gives back what the frame of its object binds by now
    refine .get fun sound => .orFault fun v found => ?_
    obtain ⟨h, bound⟩ := Store.getAt_eq_ok found
    exact sound.frames h _ v bound
  · cases flow with
    | normal => exact .pure trivial
    | returned v => exact .pure ended

theorem construct {c : Class} {arguments : List Value} (live : c.Live m)
    (given : ∀ v ∈ arguments, v.Live m) :
    Keeps m (Eval.construct run c arguments) fun m' v => v.Live m' := by
  apply (Keeps.newObject live).bind
  intro m₁ object grown there
  split
  · exact .pure there
  · next method found =>
    have method := (live _ method found).mono grown
    apply (Keeps.bindMethod method there).bind
    intro m₂ bound later alive
    have given (v : Value) (member : v ∈ arguments) : v.Live m₂ :=
      ((given v member).mono grown).mono later
    -- whatever `init` returns, the object is the one made before
    refine (Keeps.callClosure runs alive given).bind fun m₃ _ last _ => .pure ?_
    exact Value.Live.mono (later.trans last) (v := .object object) there

theorem call {callee : Value} {arguments : List Value} (live : callee.Live m)
    (given : ∀ v ∈ arguments, v.Live m) (closing : Lexeme) :
    Keeps m (Eval.call run callee arguments closing) fun m' v => v.Live m' := by
  unfold Eval.call
  cases callee with
  | number _ | string _ | boolean _ | nil | object _ => exact .fail _ closing
  | callable g =>
    dsimp only
    split
    · cases g with
      | native g => exact Keeps.readClock.bind fun _ _ _ _ => .pure trivial
      | function g => exact Keeps.callClosure runs live given
      | ofClass c => exact Keeps.construct runs live given
    · exact .fail _ closing

end Keeps

/-! Declarations of classes. -/

namespace Keeps

theorem superclassOf (f : FrameId) (superclass : Option Superclass) :
    Keeps m (Eval.superclassOf f superclass) fun m' parent => ∀ c ∈ parent, c.Live m' := by
  cases superclass with
  | none => exact .pure nofun
  | some s =>
    apply (Keeps.readName f s.id s.name).bind
    intro m₁ v _ live
    split
    · refine .pure ?_
      rintro _ ⟨⟩
      exact live
    · exact .fail _ s.name


theorem declareClass (name : Lexeme) (superclass : Option Superclass)
    (methods : List FunctionDecl) (inside : f < m.store.frames.size) :
    Keeps m (Eval.declareClass f name superclass methods) fun _ _ => True := by
  apply (Keeps.define f name.text (v := .nil) trivial).bind
  intro m₁ _ grown _
  apply (Keeps.superclassOf f superclass).bind
  intro m₂ parent later inherited
  have inside := later.inside (grown.inside inside)
  refine .define f name.text fun x method found => ?_
  have own (found : (Eval.methodTable f methods).get? x = some method) : method.Live m₂ := by
    refine Table.forall_ofList (fun entry member => ?_) found
    obtain ⟨d, _, rfl⟩ := List.mem_map.mp member
    exact inside
  cases parent with
  | none => exact own found
  | some c =>
    rw [Class.method?, Option.or_eq_some_iff] at found
    rcases found with found | ⟨_, found⟩
    · exact own found
    · exact inherited c rfl x method found

end Keeps

/-! Expressions, statements and loops. -/

variable {fuel : Nat}

theorem keepsValues_succ (values : KeepsValues (evaluate fuel)) (runs : KeepsRuns (execute fuel)) :
    KeepsValues (evaluate (fuel + 1)) := by
  intro m f e inside
  unfold evaluate
  cases e with
  | literal id value => exact .pure value.live_value
  | group id inner => exact values inner inside
  | var id name | this id name => exact .readName f id name
  | assign id name value =>
    apply (values value inside).bind
    intro m₁ v _ live
    exact (Keeps.writeName f id name live).bind fun m₂ _ grown _ => .pure (live.mono grown)
  | unary id op sign operand =>
    exact (values operand inside).bind fun _ _ _ _ => .orFail fun _ => UnaryOp.live_apply
  | binary id op sign left right =>
    apply (values left inside).bind
    intro m₁ a grown _
    apply (values right (grown.inside inside)).bind
    intro _ _ _ _
    exact .orFail fun _ => BinaryOp.live_apply
  | logical id op sign left right =>
    apply (values left inside).bind
    intro m₁ v grown live
    split
    · exact .pure live
    · exact values right (grown.inside inside)
  | call id callee arguments closing =>
    apply (values callee inside).bind
    intro m₁ g grown live
    apply (Keeps.valueEach values arguments (grown.inside inside)).bind
    intro m₂ vs later given
    exact Keeps.call runs (live.mono later) given closing
  | get id object property =>
    apply (values object inside).bind
    intro m₁ v _ live
    cases v with
    | object i => exact .readProperty live property
    | number _ | string _ | boolean _ | nil | callable _ => exact .fail _ property
  | set id object property value =>
    apply (values object inside).bind
    intro m₁ v grown _
    cases v with
    | object i =>
      apply (values value (grown.inside inside)).bind
      intro m₂ v _ live
      exact (Keeps.setField i property.text live).bind fun m₃ _ later _ => .pure (live.mono later)
    | number _ | string _ | boolean _ | nil | callable _ => exact .fail _ property

/-- Loops run their body in any frame that is there. -/
def KeepsRounds (loop : FrameId → Expr → Stmt → Eval Flow) : Prop :=
  ∀ {m : Machine} {f : FrameId} (condition : Expr) (body : Stmt), f < m.store.frames.size →
    Keeps m (loop f condition body) fun m' flow => flow.Live m'

theorem keepsRuns_succ (values : KeepsValues (evaluate fuel)) (runs : KeepsRuns (execute fuel))
    (loops : KeepsRounds (rounds fuel)) : KeepsRuns (execute (fuel + 1)) := by
  intro m f s inside
  unfold execute
  cases s with
  | expression value => exact (values value inside).bind fun _ _ _ _ => .pure trivial
  | print value =>
    apply (values value inside).bind
    intro m₁ v _ _
    exact (Keeps.print v).bind fun _ _ _ _ => .pure trivial
  | var name initial =>
    have declared {m : Machine} {v : Value} (live : v.Live m) :
        Keeps m (do Eval.define f name.text v; return Flow.normal) fun m' flow => flow.Live m' :=
      (Keeps.define f name.text live).bind fun _ _ _ _ => .pure trivial
    cases initial with
    | none => exact declared (v := .nil) trivial
    | some e => exact (values e inside).bind fun _ _ _ live => declared live
  | block body =>
    refine Keeps.bind (.newFrame ?_ nofun) fun m₁ inner _ inside => Keeps.runEach runs body inside
    rintro _ ⟨⟩
    exact inside
  | ifThen condition yes =>
    apply (values condition inside).bind
    intro m₁ v grown _
    split
    · exact runs yes (grown.inside inside)
    · exact .pure trivial
  | ifElse condition yes no =>
    apply (values condition inside).bind
    intro m₁ v grown _
    split
    · exact runs yes (grown.inside inside)
    · exact runs no (grown.inside inside)
  | whileLoop condition body => exact loops condition body inside
  | function declaration =>
    have live : (Value.callable (.function ⟨declaration, f, false⟩)).Live m := inside
    exact (Keeps.define f _ live).bind fun _ _ _ _ => .pure trivial
  | returns keyword value =>
    cases value with
    | none => exact .pure (a := Flow.returned .nil) trivial
    | some e => exact (values e inside).bind fun _ _ _ live => .pure live
  | classDecl name superclass methods =>
    apply (Keeps.declareClass name superclass methods inside).bind
    intro _ _ _ _
    exact .pure trivial

theorem keepsRounds_succ (values : KeepsValues (evaluate fuel)) (runs : KeepsRuns (execute fuel))
    (loops : KeepsRounds (rounds fuel)) : KeepsRounds (rounds (fuel + 1)) := by
  intro m f condition body inside
  unfold rounds
  apply (values condition inside).bind
  intro m₁ v grown _
  have inside := grown.inside inside
  split
  · refine (runs body inside).bind fun m₂ flow later ended => ?_
    cases flow with
    | normal => exact loops condition body (later.inside inside)
    | returned v => exact .pure ended
  · exact .pure trivial

/-- With any amount of fuel, from every sound machine and in every frame of it. -/
theorem evaluation_keeps (fuel : Nat) :
    KeepsValues (evaluate fuel) ∧ KeepsRuns (execute fuel) ∧ KeepsRounds (rounds fuel) := by
  induction fuel with
  | zero => exact ⟨fun _ _ => .throw _, fun _ _ => .throw _, fun _ _ _ => .throw _⟩
  | succ fuel ih =>
    obtain ⟨values, runs, loops⟩ := ih
    exact ⟨keepsValues_succ values runs, keepsRuns_succ values runs loops,
      keepsRounds_succ values runs loops⟩

theorem Keeps.interpret (fuel : Nat) (program : List Stmt) (nonempty : 0 < m.store.frames.size) :
    Keeps m (interpret fuel program) fun _ _ => True := by
  have runs : KeepsRuns (execute fuel) := (evaluation_keeps fuel).2.1
  have statements : Keeps m (runProgram fuel program) fun _ _ => True := by
    induction program generalizing m with
    | nil => exact .pure trivial
    | cons s rest ih =>
      apply (runs s nonempty).bind
      intro m₁ flow grown _
      cases flow with
      | normal => exact ih (grown.inside nonempty)
      | returned v => exact .throw _
  refine statements.bind fun m₁ _ _ _ sound => ?_
  unfold Eval.flush
  split
  · exact ⟨sound, .refl m₁, trivial⟩
  · exact ⟨sound, .refl m₁⟩

end ScopeScript
