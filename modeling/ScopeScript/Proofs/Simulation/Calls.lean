import ScopeScript.Proofs.Lexical.Evaluate
import ScopeScript.Proofs.Simulation.Names
import ScopeScript.Proofs.Simulation.Values

/-! New frames, bound methods and calls on the two machines. A frame that starts with names is
an empty one in which they are declared one after the other. -/
namespace ScopeScript
open Lexical (Names Scope)
open World

/-- Binds names in a frame one after the other. -/
def Eval.defineEach (f : FrameId) : List (String × Value) → Eval Unit
  | [] => return ()
  | (x, v) :: rest => do
    Eval.define f x v
    Eval.defineEach f rest

theorem Store.define_add {α : Type} (s : Store α) (frame : Frame α) (x : String) (v : α) :
    (s.add frame).define s.nextFrame x v =
      s.add { frame with bindings := frame.bindings.insert x v } := by
  simp only [add, define, nextFrame, mk.injEq]
  apply Array.ext
  · simp
  · intro i first second
    simp only [Array.getElem_modify, Array.getElem_push]
    grind

/-- Binding names in a frame that has just been made. -/
theorem Eval.defineEach_add (entries : List (String × Value)) (frame : Frame Value) (m : Machine) :
    Eval.defineEach m.store.nextFrame entries { m with store := m.store.add frame } =
      .ok () { m with store := m.store.add { frame with
        bindings := entries.foldl (fun t e => t.insert e.1 e.2) frame.bindings } } := by
  induction entries generalizing frame with
  | nil => rfl
  | cons entry rest ih =>
    have step : Eval.defineEach m.store.nextFrame (entry :: rest)
        { m with store := m.store.add frame } =
        Eval.defineEach m.store.nextFrame rest { m with
          store := (m.store.add frame).define m.store.nextFrame entry.1 entry.2 } := rfl
    rw [step, Store.define_add]
    exact ih _

theorem Eval.newFrame_ofList {γ : Type} (entries : List (String × Value))
    (enclosing : Option FrameId) (next : FrameId → Eval γ) :
    (Eval.newFrame { bindings := .ofList entries, enclosing } >>= next) =
      (Eval.newFrame { enclosing } >>= fun f => Eval.defineEach f entries >>= fun _ => next f) := by
  funext m
  have made := Eval.defineEach_add entries { enclosing } m
  simp only [Bind.bind, EStateM.bind, Eval.newFrame, made]
  rfl

/-- A name gets its value in two steps. -/
theorem Eval.define_eq_twice (f : FrameId) (x : String) (v : Value) :
    Eval.define f x v = (Eval.define f x .nil >>= fun _ => Eval.define f x v) := by
  funext m
  show EStateM.Result.ok () _ = EStateM.Result.ok () _
  rw [Store.define_define]

variable {w : World} {opened : Option FrameId} {s : Scopes} {f : FrameId} {names : Names}
  {scope : Scope} {α β γ δ : Type}

namespace Sim

/-- A new frame. What is declared in it is not seen from outside. -/
theorem newFrame {S : World → γ → δ → Prop} {next : FrameId → Eval γ} {b : Lexical.Eval δ}
    (linked : w.Linked s.locals f names)
    (inside : ∀ w' g, w.Grows none w' → w'.Current (s.enter []) g (.inner names) →
      Sim (some g) w' S (next g) b) :
    Sim none w S (Eval.newFrame { enclosing := some f } >>= next) b := by
  intro m l mirrors
  have grown := w.grows_withFrame f
  have current : (w.withFrame f).Current (s.enter []) w.size (.inner names) := by
    refine .inner ⟨⟨Nat.lt_succ_self _, nofun, f, if_pos rfl, linked.chain.mono grown⟩, ?_⟩ ?_
    · intro x
      have here : (w.withFrame f).parent w.size = some f := if_pos rfl
      rw [World.locate, here]
      exact (linked.mono grown).locate x
    · intro x location located
      exact absurd (w.place_lt _ x location located) (Nat.lt_irrefl _)
  have met := inside _ _ grown current _ l (mirrors.add_frame f)
  have number : m.store.nextFrame = w.size := mirrors.size
  rw [← number] at met
  have fresh : w.size ≤ m.store.nextFrame := Nat.le_of_eq number.symm
  exact met.imp (fun w' later => ⟨grown.trans_fresh fresh later.grows, later.notes⟩)
    fun _ _ _ _ related => related

theorem declareEach {params : List Lexeme} {arguments : List Value}
    {others : List (Value Names)} (current : w.Current s f scope) (fresh : s.FreshParams params)
    (same : List.Forall₂ (Same w) arguments others) (enough : arguments.length = params.length) :
    Sim (some f) w (fun w' _ scope' => w'.Current (s.declareParams params) f scope')
      (Eval.defineEach f ((params.map (·.text)).zip arguments))
      (Lexical.Eval.declareEach scope ((params.map (·.text)).zip others)) := by
  induction params generalizing w s scope arguments others with
  | nil => exact .pure current
  | cons p rest ih =>
    cases same with
    | nil => contradiction
    | cons first others =>
      apply (Sim.declare current fresh.1 first).bind
      intro w' _ scope' grown declared
      exact ih declared.1 fresh.2 (others.imp fun _ _ same => same.mono grown) (Nat.succ.inj enough)

theorem bindMethod {method : Closure} {other : Closure Names} (same : SameMethod w method other)
    (object : ObjectId) :
    Sim none w (fun w' b b' => SameFunction w' b b' ∧ b.declaration = method.declaration)
      (Eval.bindMethod method object) (Lexical.Eval.bindMethod other object) := by
  obtain ⟨declaration, isInit, c, linked, agrees, this⟩ := same
  rw [Eval.bindMethod, Eval.newFrame_ofList]
  apply Sim.newFrame linked
  intro w' g grown current
  have declared : Sim (some g) w' _ (Eval.defineEach g [(thisName, .object object)])
      (Lexical.Eval.declare (.inner other.scope) thisName (.object object)) :=
    Sim.declare current List.not_mem_nil (.object object)
  apply declared.bind
  intro w'' _ scope' later here
  refine .pure ⟨⟨declaration, isInit, c.classBody, here.1.linked, ?_, this⟩, rfl⟩
  exact method.declaration.scoped_mono later.extends
    (method.declaration.scoped_mono grown.extends agrees)

theorem readProperty (object : ObjectId) (name : Lexeme) :
    Sim none w Same (Eval.readProperty object name) (Lexical.Eval.readProperty object name) := by
  apply Sim.get
  intro m l mirrors
  have here := mirrors.objects object
  generalize m.objects[object]? = left at here
  generalize l.objects[object]? = right at here
  cases here with
  | none => exact Sim.fail _ name m l mirrors
  | some same =>
    simp only [Option.bind_some]
    rcases same.fields.get?_cases name.text with ⟨left, right⟩ | ⟨v, u, left, right, field⟩
    · rw [left, right]
      rcases same.origin.method? name.text with ⟨left, right⟩ | ⟨f, g, left, right, method⟩
      · rw [left, right]
        exact Sim.fail _ name m l mirrors
      · rw [left, right]
        have bound := (Sim.bindMethod method object).bind fun w' f g _ same =>
          Sim.pure (R := Same) (.callable (.function same.1))
        exact bound m l mirrors
    · rw [left, right]
      exact Sim.pure field m l mirrors

end Sim

/-- The methods of a class declared in a frame that is linked to a map. -/
theorem sameMethods {c : Context} {methods : List FunctionDecl}
    (linked : w.Linked c.scopes.locals f names)
    (agrees : FunctionDecl.ScopedEach w.notes c.classBody methods) :
    Table.Rel (SameMethod w) (Eval.methodTable f methods)
      (Lexical.Eval.methodTable names methods) := by
  refine Table.Rel.ofList ?_
  induction methods with
  | nil => exact .nil
  | cons d rest ih =>
    exact .cons ⟨rfl, rfl, rfl, c, linked, agrees.1, fun _ => ⟨_, rfl⟩⟩ (ih agrees.2)

/-- How a statement ends on the two machines. A statement returns inside a function only. -/
inductive SameFlow (inFunction : Bool) (behind : Scopes) (f : FrameId) (w : World) :
    Flow → Lexical.Flow → Prop where
  | normal {scope : Scope} : w.Current behind f scope →
      SameFlow inFunction behind f w .normal (.normal scope)
  | returned {v : Value} {u : Value Names} : inFunction = true → Same w v u →
      SameFlow inFunction behind f w (.returned v) (.returned u)

/-- The frame that a statement may declare names in. -/
def Stmt.opens (f : FrameId) (s : Stmt) : Option FrameId := if s.isDeclaration then some f else none

/-- Two ways to run statements that do the same. -/
def Runs (run : FrameId → Stmt → Eval Flow) (run' : Scope → Stmt → Lexical.Eval Lexical.Flow) :
    Prop :=
  ∀ {w : World} {c : Context} {f : FrameId} {scope : Scope} (s : Stmt),
    w.Current c.scopes f scope → s.Scoped w.notes c →
      Sim (s.opens f) w (SameFlow c.inFunction (c.scopes.after s) f) (run f s) (run' scope s)

variable {run : FrameId → Stmt → Eval Flow} {run' : Scope → Stmt → Lexical.Eval Lexical.Flow}

namespace Sim

theorem runEach (runs : Runs run run') {c : Context} {body : List Stmt}
    (current : w.Current c.scopes f scope) (agrees : Stmt.ScopedEach w.notes c body) :
    Sim (some f) w (SameFlow c.inFunction (body.foldl Scopes.after c.scopes) f)
      (Eval.runEach (run f) body) (Lexical.Eval.runEach run' scope body) := by
  induction body generalizing w c scope with
  | nil => exact .pure (.normal current)
  | cons s rest ih =>
    have first : Sim (some f) w (SameFlow c.inFunction (c.scopes.after s) f) (run f s)
        (run' scope s) := by
      have h := runs s current agrees.1
      unfold Stmt.opens at h
      split at h
      · exact h
      · exact h.widen
    apply first.bind
    intro w' flow other grown same
    cases same with
    | normal behind => exact ih behind (Stmt.scopedEach_mono grown.extends rest agrees.2)
    | returned inFunction same => exact .pure (.returned inFunction same)

/-- The object that an initializer gives back is what `this` stands for around it. -/
theorem readThis {outer : List (List String)} {f : FrameId} {names : Names}
    (linked : w.Linked ([thisName] :: outer) f names) :
    Sim opened w Same (MonadState.get >>= fun m => Eval.orFault (m.store.getAt f 0 thisName))
      (MonadState.get >>= fun l => Pure.pure ((l.value? names thisName).getD .nil)) := by
  apply Sim.get
  intro m l mirrors
  obtain ⟨_, bound, _, _, _⟩ := linked.chain
  obtain ⟨location, located⟩ := bound thisName (List.mem_singleton_self _)
  obtain ⟨v, u, read, held, same⟩ := mirrors.cell f thisName location located
  have found : names.get? thisName = some location := by
    rw [linked.locate, World.locate, if_pos (by decide), located]
  simp only [Store.getAt, Store.ancestor, read, Lexical.Machine.value?, found, held]
  exact ⟨w, .refl w opened, mirrors, same⟩

theorem callClosure (runs : Runs run run') {g : Closure} {g' : Closure Names}
    (same : SameFunction w g g') {arguments : List Value} {others : List (Value Names)}
    (given : List.Forall₂ (Same w) arguments others) (enough : arguments.length = g.arity) :
    Sim none w Same (Eval.callClosure run g arguments)
      (Lexical.Eval.callClosure run' g' others) := by
  obtain ⟨declaration, isInit, c, linked, agrees, this⟩ := same
  obtain ⟨g, frame, init⟩ := g
  obtain ⟨name, params, body⟩ := g
  obtain ⟨g', scope, init'⟩ := g'
  obtain rfl : g' = _ := declaration
  obtain rfl : init' = init := isInit
  rw [Eval.callClosure, Eval.newFrame_ofList]
  apply Sim.newFrame linked
  intro w₁ f grown current
  refine (Sim.declareEach current agrees.1 (given.imp fun _ _ same => same.mono grown)
    enough).bind fun w₂ _ scope' grown₂ current => ?_
  have body : Stmt.ScopedEach w₂.notes (c.functionBody params) body :=
    Stmt.scopedEach_mono grown₂.extends body (Stmt.scopedEach_mono grown.extends body agrees.2)
  apply (Sim.runEach runs current body).bind
  intro w₃ flow other grown₃ same
  cases init' with
  | true =>
    obtain ⟨outer, locals⟩ : ∃ outer, c.scopes.locals = [thisName] :: outer := this rfl
    rw [locals] at linked
    exact Sim.readThis (((linked.mono grown).mono grown₂).mono grown₃)
  | false =>
    cases same with
    | normal _ => exact .pure .nil
    | returned _ same => exact .pure same

theorem construct (runs : Runs run run') {c : Class} {d : Class Names} (same : SameClass w c d)
    {arguments : List Value} {others : List (Value Names)}
    (given : List.Forall₂ (Same w) arguments others) (enough : arguments.length = c.arity) :
    Sim none w Same (Eval.construct run c arguments) (Lexical.Eval.construct run' d others) := by
  apply (Sim.newObject same).bind
  intro w₁ object _ grown number
  subst number
  rcases same.method? initName with ⟨left, right⟩ | ⟨g, g', left, right, method⟩
  · rw [left, right]
    exact .pure (.object object)
  · rw [left, right]
    rw [Class.arity, left] at enough
    apply (Sim.bindMethod (method.mono grown) object).bind
    intro w₂ b b' grown₂ bound
    have given₂ := given.imp fun _ _ same => (same.mono grown).mono grown₂
    have declared : b.arity = g.arity := by rw [Closure.arity, Closure.arity, bound.2]
    exact (Sim.callClosure runs bound.1 given₂ (enough.trans declared.symm)).bind
      fun _ _ _ _ _ => .pure (.object object)

theorem enter (runs : Runs run run') {g : Callable} {g' : Callable Names}
    (same : SameCallable w g g') {arguments : List Value} {others : List (Value Names)}
    (given : List.Forall₂ (Same w) arguments others) (enough : arguments.length = g.arity) :
    Sim none w Same (Eval.enter run arguments g) (Lexical.Eval.enter run' others g') := by
  cases same with
  | native g =>
    cases g
    apply Sim.readClock.bind
    intro _ a b _ same
    subst same
    exact .pure (.number a)
  | function same => exact Sim.callClosure runs same given enough
  | ofClass same => exact Sim.construct runs same given enough

theorem call (runs : Runs run run') {callee : Value} {callee' : Value Names}
    (same : Same w callee callee') {arguments : List Value} {others : List (Value Names)}
    (given : List.Forall₂ (Same w) arguments others) (closing : Lexeme) :
    Sim none w Same (Eval.call run callee arguments closing)
      (Lexical.Eval.call run' callee' others closing) := by
  cases same with
  | number _ | string _ | boolean _ | nil | object _ => exact .fail _ closing
  | callable same =>
    simp only [Eval.call, Lexical.Eval.call, ← same.arity_eq, ← given.length_eq]
    split
    · next enough => exact Sim.enter runs same given enough
    · exact .fail _ closing

theorem superclassOf {superclass : Option Superclass} (linked : w.Linked s.locals f names)
    (noted : ∀ parent, superclass = some parent → s.Noted w.notes parent.id parent.name) :
    Sim opened w (fun w' => Option.Rel (SameClass w')) (Eval.superclassOf f superclass)
      (Lexical.Eval.superclassOf names superclass) := by
  cases superclass with
  | none => exact .pure .none
  | some parent =>
    apply (Sim.readName linked (noted parent rfl)).bind
    intro w' v u _ same
    cases same with
    | number _ | string _ | boolean _ | nil | object _ => exact .fail _ _
    | callable same =>
      cases same with
      | native _ | function _ => exact .fail _ _
      | ofClass same => exact .pure (.some same)

/-- A name that was just declared gets its value. -/
theorem complete {x : String} (current : w.Current s f scope) (owns : w.Owns scope.names x f)
    {v : Value} {u : Value Names} (same : Same w v u) :
    Sim (some f) w (fun w' _ scope' => w'.Current s f scope') (Eval.define f x v)
      (do
        Lexical.Eval.put scope.names x u
        Pure.pure scope) := by
  have written : Sim none w (fun w' _ _ => w'.Current s f scope) (Eval.define f x v)
      (Lexical.Eval.put scope.names x u) :=
    (Sim.put owns same).imp fun _ _ _ grown _ => current.mono grown
  have back := written.bind fun w' (_ : Unit) (_ : Unit) _ current =>
    Sim.pure (R := fun w' (_ : Unit) scope' => w'.Current s f scope') (a := ()) current
  exact back.widen

theorem declareFunction {c : Context} {d : FunctionDecl} (current : w.Current c.scopes f scope)
    (fresh : c.scopes.Fresh d.name.text)
    (agrees : d.Scoped w.notes (c.declare d.name.text)) :
    Sim (some f) w (fun w' _ scope' => w'.Current (c.scopes.declare d.name.text) f scope')
      (Eval.define f d.name.text (.callable (.function ⟨d, f, false⟩)))
      (Lexical.Eval.declareFunction scope d) := by
  rw [Eval.define_eq_twice]
  apply (Sim.declare current fresh .nil).bind
  intro w' _ scope' grown declared
  refine Sim.complete declared.1 declared.2 (.callable (.function ⟨rfl, rfl, ?_⟩))
  exact ⟨c.declare d.name.text, declared.1.linked, d.scoped_mono grown.extends agrees, nofun⟩

theorem declareClass {c : Context} {name : Lexeme} {superclass : Option Superclass}
    {methods : List FunctionDecl} (current : w.Current c.scopes f scope)
    (agrees : (Stmt.classDecl name superclass methods).Scoped w.notes c) :
    Sim (some f) w (fun w' _ scope' => w'.Current (c.scopes.declare name.text) f scope')
      (Eval.declareClass f name superclass methods)
      (Lexical.Eval.declareClass scope name superclass methods) := by
  obtain ⟨fresh, noted, agrees⟩ := agrees
  apply (Sim.declare current fresh .nil).bind
  intro w₁ _ scope' grown declared
  obtain ⟨current, owns⟩ := declared
  have noted₁ : ∀ parent, superclass = some parent →
      (c.declare name.text).scopes.Noted w₁.notes parent.id parent.name := by
    rintro parent rfl
    exact Scopes.Noted.mono noted grown.extends
  -- looking up the superclass declares nothing, so the scope is still the current one
  have inherited : Sim none w₁
      (fun w' parent ancestor => Option.Rel (SameClass w') parent ancestor ∧
        w'.Current (c.declare name.text).scopes f scope' ∧ w'.Owns scope'.names name.text f)
      (Eval.superclassOf f superclass) (Lexical.Eval.superclassOf scope'.names superclass) :=
    (Sim.superclassOf current.linked noted₁).imp fun w' _ _ grown related =>
      ⟨related, current.mono grown, owns.mono grown⟩
  apply inherited.widen.bind
  intro w₂ parent ancestor grown₂ related
  obtain ⟨related, current, owns⟩ := related
  have agrees₂ := FunctionDecl.scopedEach_mono grown₂.extends methods
    (FunctionDecl.scopedEach_mono grown.extends methods agrees)
  have table := sameMethods current.linked agrees₂
  refine Sim.complete current owns (.callable (.ofClass ?_))
  cases related with
  | none => exact .base table
  | some same => exact .derived same table

end Sim
end ScopeScript
