import ScopeScript.Proofs.Receiver.Steps

/-! Watched evaluation of code whose `this` is in its place: expressions, statements and calls, on
every exit and with every amount of fuel. -/
namespace ScopeScript

/-- A value that is returned is fine. -/
def Flow.Fine (t : Watch) (n : Notes) : Flow → Prop
  | .normal => True
  | .returned v => v.Fine t n

namespace Watch
variable {t t' : Watch} {n : Notes} {kinds : List ScopeKind} {f g : FrameId}

def KeepsValues (n : Notes) (value : FrameId → Expr → Step Value) : Prop :=
  ∀ {t : Watch} {kinds : List ScopeKind} {f : FrameId} (e : Expr), t.Runs kinds f →
    e.Placed n kinds → Keeps n t (value f e) fun t' v => v.Fine t' n

def KeepsRuns (n : Notes) (run : FrameId → Stmt → Step Flow) : Prop :=
  ∀ {t : Watch} {kinds : List ScopeKind} {f : FrameId} (s : Stmt), t.Runs kinds f →
    s.Placed n kinds → Keeps n t (run f s) fun t' flow => flow.Fine t' n

def KeepsRounds (n : Notes) (loop : FrameId → Expr → Stmt → Step Flow) : Prop :=
  ∀ {t : Watch} {kinds : List ScopeKind} {f : FrameId} (condition : Expr) (body : Stmt),
    t.Runs kinds f → condition.Placed n kinds → body.Placed n kinds →
      Keeps n t (loop f condition body) fun t' flow => flow.Fine t' n

/-! Calls. -/

namespace Keeps

theorem valueEach {value : FrameId → Expr → Step Value} (values : KeepsValues n value)
    (here : t.Runs kinds f) {es : List Expr} (placed : Expr.PlacedEach n kinds es) :
    Keeps n t (valueEach (value f) es) fun t' vs => ∀ v ∈ vs, v.Fine t' n := by
  induction es generalizing t with
  | nil => exact .pure nofun
  | cons e rest ih =>
    apply (values e here placed.1).bind
    intro t₁ v grown first
    apply (ih (here.mono grown) placed.2).bind
    intro t₂ vs later others
    exact .pure (List.forall_mem_cons.mpr ⟨first.mono later (.refl n), others⟩)

variable {run : FrameId → Stmt → Step Flow} (runs : KeepsRuns n run)
include runs

theorem runEach (here : t.Runs kinds f) {body : List Stmt} (placed : Stmt.PlacedEach n kinds body) :
    Keeps n t (runEach (run f) body) fun t' flow => flow.Fine t' n := by
  induction body generalizing t with
  | nil => exact .pure trivial
  | cons s rest ih =>
    apply (runs s here placed.1).bind
    intro t₁ flow grown ended
    cases flow with
    | normal => exact ih (here.mono grown) placed.2
    | returned v => exact .pure ended

/-- An initializer gives back the object it is bound to, whatever its body returns. -/
theorem callClosure {c : Closure} {arguments : List Value} (fine : c.Fine t n)
    (given : ∀ v ∈ arguments, v.Fine t n) :
    Keeps n t (callClosure run c arguments) fun t' v => v.Fine t' n := by
  obtain ⟨⟨name, params, body⟩, scope, isInit⟩ := c
  obtain ⟨kinds, fits, ⟨named, placed⟩, bound⟩ := fine
  let entries := (params.map (·.text)).zip arguments
  have other : (Table.ofList entries).get? thisName = none := by
    by_contra found
    obtain ⟨v, found⟩ := Option.ne_none_iff_exists'.mp found
    have member := (List.of_mem_zip (Table.mem_of_get?_ofList found)).1
    obtain ⟨p, member, same⟩ := List.mem_map.mp member
    exact named p member same
  have values : (Table.ofList entries).Fine t n :=
    Table.fine_ofList fun entry member => given entry.2 (List.of_mem_zip member).2
  refine .get fun _ => (Keeps.codeFrame .function nofun fits other values).bind ?_
  intro t₁ frame grown here
  apply (Keeps.runEach runs here placed).bind
  intro t₂ flow later ended
  cases isInit with
  | true =>
    -- nothing has changed what the frame around the body binds
    obtain ⟨object, role⟩ := bound rfl
    have still : t₂.role scope = .bound object := later.bound (grown.bound role)
    refine (Keeps.told fun sound => ?_).imp ?_
    · refine ⟨.object object, ?_, object, by rw [role]; rfl, rfl⟩
      rw [Eval.get_bind, sound.getAt_bound still]
      rfl
    · rintro _ _ _ ⟨_, _, ⟨⟩⟩
      trivial
  | false =>
    cases flow with
    | normal => exact .pure trivial
    | returned v => exact .pure ended

/-- The object that a class makes is new and of that class, wherever its `init` comes from. -/
theorem construct {c : Class} {arguments : List Value} (fine : c.Fine t n)
    (given : ∀ v ∈ arguments, v.Fine t n) :
    Keeps n t (construct run c arguments) fun t' v => v.Fine t' n := by
  refine .get fun _ => (Keeps.newObject fine).bind ?_
  rintro t₁ object grown ⟨new, o, there, origin⟩
  have told {t' : Watch} (later : t₁.Grows t') : (Event.constructed c t.machine.objects.size
      (.object object)).Good t'.machine := by
    obtain ⟨o', there', kept⟩ := later.objects object o there
    exact ⟨by rw [new], o', new ▸ there', kept.trans origin⟩
  split
  · exact (Keeps.record (told (.refl t₁))).bind fun _ _ _ _ => .pure trivial
  · next method found =>
    have method := (fine _ method found).mono grown (.refl n)
    apply (Keeps.bindMethod method object).bind
    intro t₂ bound later fine
    have given (v : Value) (member : v ∈ arguments) : v.Fine t₂ n :=
      (given v member).mono (grown.trans later) (.refl n)
    apply (Keeps.callClosure runs fine given).bind
    intro t₃ _ last _
    exact (Keeps.record (told (later.trans last))).bind fun _ _ _ _ => .pure trivial

theorem call {callee : Value} {arguments : List Value} (fine : callee.Fine t n)
    (given : ∀ v ∈ arguments, v.Fine t n) (closing : Lexeme) :
    Keeps n t (call run callee arguments closing) fun t' v => v.Fine t' n := by
  unfold Watch.call
  cases callee with
  | number _ | string _ | boolean _ | nil | object _ => exact .fail _ closing
  | callable c =>
    dsimp only
    split
    · cases c with
      | native c =>
        cases c
        exact Keeps.readClock.bind fun _ _ _ _ => .pure trivial
      | function c => exact Keeps.callClosure runs fine given
      | ofClass c => exact Keeps.construct runs fine given
    · exact .fail _ closing

end Keeps

/-! Declarations of classes. -/

namespace Keeps

theorem superclassOf (f : FrameId) (superclass : Option Superclass) :
    Keeps n t (lift (Eval.superclassOf f superclass)) fun t' parent => ∀ c ∈ parent, c.Fine t' n := by
  refine .still fun sound => ?_
  cases superclass with
  | none => exact .inl ⟨none, rfl, nofun⟩
  | some s =>
    simp only [Eval.superclassOf, Bind.bind, EStateM.bind]
    rcases Eval.readName_cases f s.id s.name t.machine with ⟨v, g, ran, bound⟩ | ⟨stop, ran⟩
    · rw [ran]
      have fine := sound.frames g s.name.text v bound
      dsimp only
      split
      · refine .inl ⟨_, rfl, ?_⟩
        rintro _ ⟨⟩
        exact fine
      · exact .inr ⟨_, rfl⟩
    · rw [ran]
      exact .inr ⟨stop, rfl⟩

theorem declareClass (here : t.Runs kinds f) {name : Lexeme} (other : name.text ≠ thisName)
    (superclass : Option Superclass) {methods : List FunctionDecl}
    (placed : FunctionDecl.PlacedEach n (.methods :: kinds) methods) :
    Keeps n t (declareClass f name superclass methods) fun _ _ => True := by
  apply (Keeps.define here.plain other (v := .nil) trivial).bind
  intro t₁ _ grown _
  apply (Keeps.superclassOf f superclass).bind
  intro t₂ parent later inherited
  have here := here.mono (grown.trans later)
  refine .define here.plain other fun x method found => ?_
  have own (found : (Eval.methodTable f methods).get? x = some method) :
      method.FineMethod t₂ n := by
    refine Table.forall_ofList (fun entry member => ?_) found
    obtain ⟨d, declared, rfl⟩ := List.mem_map.mp member
    exact ⟨kinds, here.fits, (FunctionDecl.placedEach_iff methods).mp placed d declared⟩
  cases parent with
  | none => exact own found
  | some c =>
    rw [Class.method?, Option.or_eq_some_iff] at found
    rcases found with found | ⟨_, found⟩
    · exact own found
    · exact inherited c rfl x method found

end Keeps

/-! Expressions, statements and loops. -/

variable {fuel : Nat}

theorem keepsValues_succ (values : KeepsValues n (evaluate fuel))
    (runs : KeepsRuns n (execute fuel)) : KeepsValues n (evaluate (fuel + 1)) := by
  intro t kinds f e here placed
  unfold evaluate
  cases e with
  | literal id value => exact .pure (Value.fine_of_live fun _ => value.live_value)
  | group id inner => exact values inner here placed
  | var id name => exact .readName f id name
  | this id keyword => exact .readThis here placed
  | assign id name value =>
    apply (values value here placed.2).bind
    intro t₁ v _ fine
    apply (Keeps.writeName f id placed.1 fine).bind
    exact fun t₂ _ grown _ => .pure (fine.mono grown (.refl n))
  | unary id op sign operand =>
    apply (values operand here placed).bind
    exact fun _ _ _ _ => .orFail fun _ applied _ => UnaryOp.live_apply applied
  | binary id op sign left right =>
    apply (values left here placed.1).bind
    intro t₁ a grown _
    apply (values right (here.mono grown) placed.2).bind
    exact fun _ _ _ _ => .orFail fun _ applied _ => BinaryOp.live_apply applied
  | logical id op sign left right =>
    apply (values left here placed.1).bind
    intro t₁ v grown fine
    split
    · exact .pure fine
    · exact values right (here.mono grown) placed.2
  | call id callee arguments closing =>
    apply (values callee here placed.1).bind
    intro t₁ c grown fine
    apply (Keeps.valueEach values (here.mono grown) placed.2).bind
    intro t₂ vs later given
    exact Keeps.call runs (fine.mono later (.refl n)) given closing
  | get id object property =>
    apply (values object here placed).bind
    intro t₁ v _ _
    cases v with
    | object i => exact .readProperty i property
    | number _ | string _ | boolean _ | nil | callable _ => exact .fail _ property
  | set id object property value =>
    apply (values object here placed.1).bind
    intro t₁ v grown _
    cases v with
    | object i =>
      apply (values value (here.mono grown) placed.2).bind
      intro t₂ v _ fine
      apply (Keeps.setField i property.text fine).bind
      exact fun t₃ _ later _ => .pure (fine.mono later (.refl n))
    | number _ | string _ | boolean _ | nil | callable _ => exact .fail _ property

theorem keepsRuns_succ (values : KeepsValues n (evaluate fuel)) (runs : KeepsRuns n (execute fuel))
    (loops : KeepsRounds n (rounds fuel)) : KeepsRuns n (execute (fuel + 1)) := by
  intro t kinds f s here placed
  unfold execute
  cases s with
  | expression value => exact (values value here placed).bind fun _ _ _ _ => .pure trivial
  | print value =>
    apply (values value here placed).bind
    intro t₁ v _ _
    exact (Keeps.print v).bind fun _ _ _ _ => .pure trivial
  | var name initial =>
    obtain ⟨other, placed⟩ := placed
    have declared {t : Watch} {v : Value} (here : t.Runs kinds f) (fine : v.Fine t n) :
        Keeps n t (do define f name.text v; return Flow.normal) fun t' flow => flow.Fine t' n :=
      (Keeps.define here.plain other fine).bind fun _ _ _ _ => .pure trivial
    cases initial with
    | none => exact declared here (v := .nil) trivial
    | some e =>
      exact (values e here placed).bind fun _ _ grown fine => declared (here.mono grown) fine
  | block body =>
    have empty : ({} : Table Value).Fine t n := by rintro _ _ ⟨⟩
    refine .get fun _ => (Keeps.codeFrame .block ScopeKind.noConfusion here.fits rfl empty).bind ?_
    exact fun t₁ inner _ inside => Keeps.runEach runs inside placed
  | ifThen condition yes =>
    apply (values condition here placed.1).bind
    intro t₁ v grown _
    split
    · exact runs yes (here.mono grown) placed.2
    · exact .pure trivial
  | ifElse condition yes no =>
    apply (values condition here placed.1).bind
    intro t₁ v grown _
    split
    · exact runs yes (here.mono grown) placed.2.1
    · exact runs no (here.mono grown) placed.2.2
  | whileLoop condition body => exact loops condition body here placed.1 placed.2
  | function declaration =>
    have fine : (Value.callable (.function ⟨declaration, f, false⟩)).Fine t n :=
      ⟨kinds, here.fits, placed.2, by rintro ⟨⟩⟩
    exact (Keeps.define here.plain placed.1 fine).bind fun _ _ _ _ => .pure trivial
  | returns keyword value =>
    cases value with
    | none => exact .pure (a := Flow.returned .nil) trivial
    | some e => exact (values e here placed).bind fun _ _ _ fine => .pure fine
  | classDecl name superclass methods =>
    apply (Keeps.declareClass here placed.1 superclass placed.2).bind
    exact fun _ _ _ _ => .pure trivial

theorem keepsRounds_succ (values : KeepsValues n (evaluate fuel))
    (runs : KeepsRuns n (execute fuel)) (loops : KeepsRounds n (rounds fuel)) :
    KeepsRounds n (rounds (fuel + 1)) := by
  intro t kinds f condition body here placed placed'
  unfold rounds
  apply (values condition here placed).bind
  intro t₁ v grown _
  have here := here.mono grown
  split
  · apply (runs body here placed').bind
    intro t₂ flow later ended
    cases flow with
    | normal => exact loops condition body (here.mono later) placed placed'
    | returned v => exact .pure ended
  · exact .pure trivial

/-- With any amount of fuel, from every sound state and in every frame that fits. -/
theorem evaluation_keeps (n : Notes) (fuel : Nat) :
    KeepsValues n (evaluate fuel) ∧ KeepsRuns n (execute fuel) ∧ KeepsRounds n (rounds fuel) := by
  induction fuel with
  | zero => exact ⟨fun _ _ _ => .throw _, fun _ _ _ => .throw _, fun _ _ _ _ _ => .throw _⟩
  | succ fuel ih =>
    obtain ⟨values, runs, loops⟩ := ih
    exact ⟨keepsValues_succ values runs, keepsRuns_succ values runs loops,
      keepsRounds_succ values runs loops⟩

theorem Keeps.interpret (fuel : Nat) {program : List Stmt} (placed : Stmt.PlacedEach n [] program) :
    Keeps n t (interpret fuel program) fun _ _ => True := by
  have runs : KeepsRuns n (execute fuel) := (evaluation_keeps n fuel).2.1
  have statements : Keeps n t (runProgram fuel program) fun _ _ => True := by
    induction program generalizing t with
    | nil => exact .pure trivial
    | cons s rest ih =>
      intro sound
      refine (runs s sound.runs_global placed.1).bind ?_ sound
      intro t₁ flow grown _
      cases flow with
      | normal => exact ih placed.2
      | returned v => exact .throw _
  exact statements.bind fun _ _ _ _ => .flush

end Watch
end ScopeScript
