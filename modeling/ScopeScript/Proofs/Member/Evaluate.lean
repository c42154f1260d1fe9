import ScopeScript.Proofs.Member.Stage
import ScopeScript.Proofs.Operators

/-! Evaluation keeps to what is known: calls, declarations, expressions and statements, on every exit
and with every amount of fuel. -/
namespace ScopeScript

variable {g : Stage}

theorem Value.known_of_isScalar {v : Value} (scalar : v.isScalar = true) : v.Known g := by
  cases v with
  | number _ | string _ | boolean _ | nil => trivial
  | callable _ | object _ => contradiction

namespace Traced

/-! Calls. -/

/-- Statements that passed the static checks are run in any frame. -/
def TellsRuns (run : FrameId → Stmt → Traced Flow) : Prop :=
  ∀ {g : Stage} (f : FrameId) {s : Stmt}, s.Passed → Tells g (run f s) Flow.Known

def TellsValues (value : FrameId → Expr → Traced Value) : Prop :=
  ∀ {g : Stage} (f : FrameId) (e : Expr), Tells g (value f e) Value.Known

namespace Tells

theorem valueEach {value : FrameId → Expr → Traced Value} (values : TellsValues value)
    (f : FrameId) (es : List Expr) :
    Tells g (valueEach (value f) es) fun h vs => ∀ v ∈ vs, v.Known h := by
  induction es generalizing g with
  | nil => exact .pure (List.forall_mem_nil _)
  | cons e rest ih =>
    apply (values f e).bind
    intro h v _ first
    apply ih.bind
    intro k vs leads others
    exact .pure (List.forall_mem_cons.mpr ⟨first.mono leads, others⟩)

variable {run : FrameId → Stmt → Traced Flow} (runs : TellsRuns run)
include runs

theorem runEach (f : FrameId) {body : List Stmt} (passed : ∀ s ∈ body, s.Passed) :
    Tells g (runEach (run f) body) Flow.Known := by
  induction body generalizing g with
  | nil => exact .pure trivial
  | cons s rest ih =>
    obtain ⟨first, others⟩ := List.forall_mem_cons.mp passed
    apply (runs f first).bind
    intro h flow _ ended
    cases flow with
    | normal => exact ih others
    | returned v => exact .pure ended

theorem callClosure {f : Closure} {arguments : List Value} (passed : f.declaration.Passed)
    (given : ∀ v ∈ arguments, v.Known g) (enough : arguments.length = f.arity) :
    Tells g (callClosure run f arguments) Value.Known := by
  refine Tells.bind (.newFrame fun x v found => ?_) fun h frame _ made => ?_
  · exact given v (List.of_mem_zip (Table.mem_of_get?_ofList found)).2
  refine .marked (fun _ _ => rfl) ?_ ?_
  · -- the frame is as new, so the parameters are as the arguments have them
    rintro _ _ _ ⟨⟩
    exact Closure.entered passed enough made
  refine (Tells.runEach runs frame passed.body).bind fun k flow _ ended => ?_
  split
  · refine .get fun known => .orFault fun v found => ?_
    obtain ⟨_, bound⟩ := Store.getAt_eq_ok found
    exact known.frames _ thisName v bound
  · cases flow with
    | normal => exact .pure trivial
    | returned v => exact .pure ended

theorem construct {c : Class} {arguments : List Value} (known : c.Known g.past)
    (given : ∀ v ∈ arguments, v.Known g) (enough : arguments.length = c.arity) :
    Tells g (construct run c arguments) Value.Known := by
  apply (Tells.newObject known).bind
  intro h object leads there
  -- the method that the arguments were counted for is the one that is called
  rw [Class.arity] at enough
  cases found : c.method? initName with
  | none => exact .pure there
  | some method =>
    rw [found] at enough
    apply (Tells.bindMethod method there).bind
    intro k bound leads' same
    have passed : bound.declaration.Passed := by
      rw [same]
      exact known.methods initName method found
    have enough' : arguments.length = bound.arity := by
      rw [Closure.arity, same]
      exact enough
    have given' (v : Value) (member : v ∈ arguments) : v.Known k :=
      ((given v member).mono leads).mono leads'
    refine (Tells.callClosure runs passed given' enough').bind fun last _ leads'' _ => .pure ?_
    exact Value.Known.mono (v := .object object) there (leads'.trans leads'')

theorem call {callee : Value} {arguments : List Value} (known : callee.Known g)
    (given : ∀ v ∈ arguments, v.Known g) (closing : Lexeme) :
    Tells g (call run callee arguments closing) Value.Known := by
  unfold Traced.call
  cases callee with
  | number _ | string _ | boolean _ | nil | object _ => exact .fail _ closing
  | callable f =>
    dsimp only
    split
    · next enough =>
      cases f with
      | native f =>
        cases f
        exact Tells.readClock.bind fun _ _ _ _ => .pure trivial
      | function f => exact Tells.callClosure runs known given enough
      | ofClass c => exact Tells.construct runs known given enough
    · exact .fail _ closing

end Tells

end Traced

/-! Declarations of classes. -/

namespace Eval

/-- A superclass is the class that its name holds, and looking it up changes nothing. -/
theorem superclassOf_cases (f : FrameId) (superclass : Option Superclass) (m : Machine) :
    (superclass = none ∧ superclassOf f superclass m = .ok none m) ∨
      (∃ s c k, superclass = some s ∧ readName f s.id s.name m = .ok (.callable (.ofClass c)) m ∧
        (m.store.frame k).bindings.get? s.name.text = some (.callable (.ofClass c)) ∧
        superclassOf f superclass m = .ok (some c) m) ∨
      ∃ stop, superclassOf f superclass m = .error stop m := by
  cases superclass with
  | none => exact .inl ⟨rfl, rfl⟩
  | some s =>
    right
    simp only [superclassOf, Bind.bind, EStateM.bind]
    rcases readName_cases f s.id s.name m with ⟨v, k, read, held⟩ | ⟨stop, failed⟩
    · rw [read]
      cases v with
      | number _ | string _ | boolean _ | nil | object _ => exact .inr ⟨_, rfl⟩
      | callable c =>
        cases c with
        | native _ | function _ => exact .inr ⟨_, rfl⟩
        | ofClass c => exact .inl ⟨s, c, k, rfl, read, held, rfl⟩
    · rw [failed]
      exact .inr ⟨stop, rfl⟩

theorem machineBehind_superclassOf (f : FrameId) (superclass : Option Superclass) (m : Machine) :
    machineBehind (superclassOf f superclass m) = m := by
  rcases superclassOf_cases f superclass m with ⟨_, found⟩ | ⟨_, _, _, _, _, _, found⟩ | ⟨_, failed⟩
  · rw [found]
    rfl
  · rw [found]
    rfl
  · rw [failed]
    rfl

/-- A declaration binds the name of the class to nothing, looks up the superclass and binds the name
to the class. -/
theorem declareClass_eq (f : FrameId) (name : Lexeme) (superclass : Option Superclass)
    (methods : List FunctionDecl) (m : Machine) :
    declareClass f name superclass methods m =
      match superclassOf f superclass { m with store := m.store.define f name.text .nil } with
      | .error stop m => .error stop m
      | .ok parent m => define f name.text
          (.callable (.ofClass (.mk name.text parent (methodTable f methods)))) m := by
  simp only [declareClass, Bind.bind, EStateM.bind, define]
  cases superclassOf f superclass { m with store := m.store.define f name.text .nil } <;> rfl

end Eval

/-- The methods of a class are its own and those of its superclass. -/
theorem Class.passed_methods {f : FrameId} {name : String} {methods : List FunctionDecl}
    {parent : Option Class} (passed : ∀ d ∈ methods, d.Passed)
    (inherited : ∀ c ∈ parent, ∀ x f, c.method? x = some f → f.declaration.Passed) (x : String)
    (method : Closure)
    (found : (Class.mk name parent (Eval.methodTable f methods)).method? x = some method) :
    method.declaration.Passed := by
  have own {method : Closure} (found : (Eval.methodTable f methods).get? x = some method) :
      method.declaration.Passed := by
    obtain ⟨d, declared, same⟩ := List.mem_map.mp (Table.mem_of_get?_ofList found)
    cases same
    exact passed d declared
  cases parent with
  | none => exact own found
  | some c =>
    rw [Class.method?, Option.or_eq_some_iff] at found
    rcases found with found | ⟨_, found⟩
    · exact own found
    · exact inherited c rfl x method found

/-- The class that a declaration makes. Its superclass, if it has one, was there before. -/
theorem Stage.Known.built {past : List Moment} {m m' : Machine} (known : Stage.Known ⟨past, m⟩)
    {f : FrameId} {name : Lexeme} {superclass : Option Superclass} (methods : List FunctionDecl)
    {parent : Option Class}
    (looked : Eval.superclassOf f superclass { m with store := m.store.define f name.text .nil } =
      .ok parent m') :
    (∃ table, (Class.mk name.text parent (Eval.methodTable f methods)).Built
      (past ++ [⟨.statement f (.classDecl name superclass methods), m⟩]) table) ∧
      ∀ c ∈ parent, c.Known past := by
  let named : Machine := { m with store := m.store.define f name.text .nil }
  -- the name of the class is bound already, to nothing
  have unnamed : Stage.Known ⟨past, named⟩ := known.define f name.text (v := .nil) trivial
  rcases Eval.superclassOf_cases f superclass named with
    ⟨rfl, found⟩ | ⟨s, c, k, rfl, read, held, found⟩ | ⟨stop, failed⟩
  · obtain ⟨rfl, _⟩ := EStateM.Result.ok.inj (looked.symm.trans found)
    exact ⟨⟨_, .base (List.prefix_refl _)⟩, nofun⟩
  · obtain ⟨rfl, _⟩ := EStateM.Result.ok.inj (looked.symm.trans found)
    have older : c.Known past := unnamed.frames k s.name.text _ held
    obtain ⟨table, built⟩ := older.built
    refine ⟨⟨_, .derived (List.prefix_refl _) read built⟩, ?_⟩
    rintro _ ⟨⟩
    exact older
  · rw [looked] at failed
    contradiction

namespace Traced.Tells

theorem declareClass (before : g.Known) (f : FrameId) (name : Lexeme)
    (superclass : Option Superclass) {methods : List FunctionDecl}
    (passed : ∀ d ∈ methods, d.Passed) :
    Tells ⟨g.past ++ [⟨.statement f (.classDecl name superclass methods), g.machine⟩], g.machine⟩
      (lift (Eval.declareClass f name superclass methods)) fun _ _ => True := by
  refine .of_lift fun known => ?_
  have unnamed := known.define f name.text (v := .nil) trivial
  have same := Eval.machineBehind_superclassOf f superclass
    { g.machine with store := g.machine.store.define f name.text .nil }
  rw [Eval.declareClass_eq]
  cases looked : Eval.superclassOf f superclass
    { g.machine with store := g.machine.store.define f name.text .nil } with
  | error stop m =>
    rw [looked] at same
    cases same
    exact unnamed
  | ok parent m =>
    obtain ⟨built, older⟩ := before.built methods looked
    rw [looked] at same
    cases same
    have made : (Class.mk name.text parent (Eval.methodTable f methods)).Known _ :=
      ⟨built, Class.passed_methods passed fun c member => (older c member).methods⟩
    exact ⟨unnamed.define f name.text made, ⟨List.prefix_refl _, Nat.le_refl _⟩, trivial⟩

theorem print (v : Value) : Tells g (print v) fun _ _ => True := by
  refine .marked (fun _ _ => rfl) (fun _ _ _ => Act.noConfusion) (.of_lift fun known => ?_)
  unfold Eval.print
  dsimp only
  split
  · exact ⟨known.apart rfl rfl, ⟨List.prefix_refl _, Nat.le_refl _⟩, trivial⟩
  · exact known.apart rfl rfl

end Traced.Tells

/-! Expressions, statements and loops. -/

namespace Traced
variable {fuel : Nat}

theorem tellsValues_succ (values : TellsValues (evaluate fuel)) (runs : TellsRuns (execute fuel)) :
    TellsValues (evaluate (fuel + 1)) := by
  intro g f e
  unfold evaluate
  refine .marked (fun _ _ => rfl) (fun _ _ _ => Act.noConfusion) ?_
  cases e with
  | literal id value =>
    refine .pure ?_
    cases value <;> trivial
  | group id inner => exact values f inner
  | var id name | this id name => exact .readName f id name
  | assign id name value =>
    apply (values f value).bind
    intro h v _ known
    exact (Tells.writeName f id name known).bind fun _ _ leads _ => .pure (known.mono leads)
  | unary id op sign operand =>
    exact (values f operand).bind fun _ _ _ _ => .orFail fun _ applied =>
      Value.known_of_isScalar (UnaryOp.isScalar_apply applied)
  | binary id op sign left right =>
    apply (values f left).bind
    intro _ _ _ _
    exact (values f right).bind fun _ _ _ _ => .orFail fun _ applied =>
      Value.known_of_isScalar (BinaryOp.isScalar_apply applied)
  | logical id op sign left right =>
    apply (values f left).bind
    intro h v _ known
    split
    · exact .pure known
    · exact values f right
  | call id callee arguments closing =>
    apply (values f callee).bind
    intro h v _ known
    apply (Tells.valueEach values f arguments).bind
    intro k vs leads given
    exact .call runs (known.mono leads) given closing
  | get id object property =>
    apply (values f object).bind
    intro h v _ known
    cases v with
    | object i => exact .readProperty known property
    | number _ | string _ | boolean _ | nil | callable _ => exact .fail _ property
  | set id object property value =>
    apply (values f object).bind
    intro h v _ there
    cases v with
    | object i =>
      apply (values f value).bind
      intro k v leads known
      have there : i < k.machine.objects.size := Nat.lt_of_lt_of_le there leads.objects
      exact (Tells.setField there property.text known).bind fun _ _ later _ => .pure (known.mono later)
    | number _ | string _ | boolean _ | nil | callable _ => exact .fail _ property

/-- Loops whose body passed the static checks are run in any frame. -/
def TellsLoops (loop : FrameId → Expr → Stmt → Traced Flow) : Prop :=
  ∀ {g : Stage} (f : FrameId) (condition : Expr) {body : Stmt}, body.Passed →
    Tells g (loop f condition body) Flow.Known

theorem tellsRuns_succ (values : TellsValues (evaluate fuel)) (runs : TellsRuns (execute fuel))
    (loops : TellsLoops (rounds fuel)) : TellsRuns (execute (fuel + 1)) := by
  intro g f s passed before
  obtain ⟨n, c, agrees⟩ := passed
  unfold execute
  refine Tells.marked (fun _ _ => rfl) (fun _ _ _ => Act.noConfusion) ?_ before
  cases s with
  | expression value => exact (values f value).bind fun _ _ _ _ => .pure trivial
  | print value =>
    apply (values f value).bind
    intro h v _ _
    exact (Tells.print v).bind fun _ _ _ _ => .pure trivial
  | var name initial =>
    have declared {h : Stage} {v : Value} (known : v.Known h) :
        Tells h (do lift (Eval.define f name.text v); return Flow.normal) Flow.Known :=
      (Tells.define f name.text known).bind fun _ _ _ _ => .pure trivial
    cases initial with
    | none => exact Tells.nil.bind fun _ _ _ known => declared known
    | some e => exact (values f e).bind fun _ _ _ known => declared known
  | block body =>
    refine Tells.bind (.newFrame (by rintro _ _ ⟨⟩)) fun h inner _ _ => ?_
    exact .runEach runs inner (Stmt.passed_of_scopedEach agrees)
  | ifThen condition yes =>
    apply (values f condition).bind
    intro h v _ _
    split
    · exact runs f ⟨n, c, agrees.2.2⟩
    · exact .pure trivial
  | ifElse condition yes no =>
    apply (values f condition).bind
    intro h v _ _
    split
    · exact runs f ⟨n, c, agrees.2.1.2⟩
    · exact runs f ⟨n, c, agrees.2.2.2⟩
  | whileLoop condition body => exact loops f condition ⟨n, c, agrees.2.2⟩
  | function declaration =>
    have passed : declaration.Passed := ⟨n, _, agrees.2⟩
    exact (Tells.define f _ (v := .callable (.function ⟨declaration, f, false⟩)) passed).bind
      fun _ _ _ _ => .pure trivial
  | returns keyword value =>
    cases value with
    | none => exact Tells.nil.bind fun _ _ _ known => .pure known
    | some e => exact (values f e).bind fun _ _ _ known => .pure known
  | classDecl name superclass methods =>
    have passed := FunctionDecl.passed_of_scopedEach agrees.2.2
    exact (Tells.declareClass before f name superclass passed).bind fun _ _ _ _ => .pure trivial

theorem tellsLoops_succ (values : TellsValues (evaluate fuel)) (runs : TellsRuns (execute fuel))
    (loops : TellsLoops (rounds fuel)) : TellsLoops (rounds (fuel + 1)) := by
  intro g f condition body passed
  unfold rounds
  apply (values f condition).bind
  intro h v _ _
  split
  · apply (runs f passed).bind
    intro k flow _ ended
    cases flow with
    | normal => exact loops f condition passed
    | returned v => exact .pure ended
  · exact .pure trivial

/-- With any amount of fuel, from every stage. -/
theorem evaluation_tells (fuel : Nat) : TellsValues (evaluate fuel) ∧ TellsRuns (execute fuel) ∧
    TellsLoops (rounds fuel) := by
  induction fuel with
  | zero =>
    refine ⟨fun _ _ => ?_, fun _ _ _ => ?_, fun _ _ _ _ => ?_⟩ <;> exact .throw _
  | succ fuel ih =>
    obtain ⟨values, runs, loops⟩ := ih
    exact ⟨tellsValues_succ values runs, tellsRuns_succ values runs loops,
      tellsLoops_succ values runs loops⟩

theorem Tells.interpret (fuel : Nat) {program : List Stmt} (passed : ∀ s ∈ program, s.Passed) :
    Tells g (interpret fuel program) fun _ _ => True := by
  have statements : Tells g (runProgram fuel program) fun _ _ => True := by
    induction program generalizing g with
    | nil => exact .pure trivial
    | cons s rest ih =>
      obtain ⟨first, others⟩ := List.forall_mem_cons.mp passed
      apply ((evaluation_tells fuel).2.1 globalFrame first).bind
      intro h flow _ _
      cases flow with
      | normal => exact ih others
      | returned v => exact .throw _
  refine statements.bind fun h _ _ _ => .of_lift fun known => ?_
  unfold Eval.flush
  split
  · exact ⟨known, .refl h, trivial⟩
  · exact known

end Traced
end ScopeScript
