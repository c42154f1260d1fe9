import ScopeScript.Proofs.Simulation.World
import ScopeScript.Proofs.Table

/-! When a value of the machine with frames and a value of the lexical machine are the same to
a program, and when two whole machines are. -/
namespace ScopeScript
open Lexical (Location Names Scope)

variable {w w' : World} {opened : Option FrameId}

theorem World.Grows.extends (grown : w.Grows opened w') : w'.notes.Extends w.notes :=
  ⟨grown.limit, grown.notes⟩

/-- Two closures of one declaration that see the same. `inside` is the context of the body's
declaration when it is entered from the closure's own scope. -/
structure SameClosure (w : World) (f : Closure) (g : Closure Names) (inside : Context → Context) :
    Prop where
  declaration : g.declaration = f.declaration
  isInit : g.isInit = f.isInit
  code : ∃ c : Context, w.Linked c.scopes.locals f.scope g.scope ∧
    f.declaration.Scoped w.notes (inside c) ∧
    (f.isInit = true → ∃ outer, (inside c).scopes.locals = [thisName] :: outer)

/-- Functions and bound methods. -/
abbrev SameFunction (w : World) (f : Closure) (g : Closure Names) : Prop := SameClosure w f g id

/-- Methods that are not bound yet: `this` is to be added around them. -/
abbrev SameMethod (w : World) (f : Closure) (g : Closure Names) : Prop :=
  SameClosure w f g Context.classBody

inductive SameClass (w : World) : Class → Class Names → Prop where
  | base {name : String} {methods : Table Closure} {others : Table (Closure Names)} :
      Table.Rel (SameMethod w) methods others →
      SameClass w (.mk name none methods) (.mk name none others)
  | derived {name : String} {parent : Class} {ancestor : Class Names} {methods : Table Closure}
      {others : Table (Closure Names)} : SameClass w parent ancestor →
      Table.Rel (SameMethod w) methods others →
      SameClass w (.mk name (some parent) methods) (.mk name (some ancestor) others)

inductive SameCallable (w : World) : Callable → Callable Names → Prop where
  | native (f : Native) : SameCallable w (.native f) (.native f)
  | function {f : Closure} {g : Closure Names} : SameFunction w f g →
      SameCallable w (.function f) (.function g)
  | ofClass {c : Class} {d : Class Names} : SameClass w c d →
      SameCallable w (.ofClass c) (.ofClass d)

inductive Same (w : World) : Value → Value Names → Prop where
  | number (value : Float) : Same w (.number value) (.number value)
  | string (contents : String) : Same w (.string contents) (.string contents)
  | boolean (value : Bool) : Same w (.boolean value) (.boolean value)
  | nil : Same w .nil .nil
  | callable {f : Callable} {g : Callable Names} : SameCallable w f g →
      Same w (.callable f) (.callable g)
  | object (id : ObjectId) : Same w (.object id) (.object id)

structure SameObject (w : World) (o : Object) (p : Object Names) : Prop where
  origin : SameClass w o.origin p.origin
  fields : Table.Rel (Same w) o.fields p.fields

theorem SameClosure.mono {f : Closure} {g : Closure Names} {inside : Context → Context}
    (same : SameClosure w f g inside) (grown : w.Grows opened w') :
    SameClosure w' f g inside := by
  obtain ⟨declaration, isInit, c, linked, agrees, this⟩ := same
  have agrees' := f.declaration.scoped_mono grown.extends agrees
  exact ⟨declaration, isInit, c, linked.mono grown, agrees', this⟩

theorem SameClass.mono {c : Class} {d : Class Names} (same : SameClass w c d)
    (grown : w.Grows opened w') : SameClass w' c d := by
  induction same with
  | base methods => exact .base (methods.mono fun _ _ h => h.mono grown)
  | derived _ methods ih => exact .derived ih (methods.mono fun _ _ h => h.mono grown)

theorem Same.mono {v : Value} {u : Value Names} (same : Same w v u) (grown : w.Grows opened w') :
    Same w' v u := by
  cases same with
  | number value => exact .number value
  | string contents => exact .string contents
  | boolean value => exact .boolean value
  | nil => exact .nil
  | object id => exact .object id
  | callable same =>
    cases same with
    | native f => exact .callable (.native f)
    | function same => exact .callable (.function (same.mono grown))
    | ofClass same => exact .callable (.ofClass (same.mono grown))

theorem SameObject.mono {o : Object} {p : Object Names} (same : SameObject w o p)
    (grown : w.Grows opened w') : SameObject w' o p :=
  ⟨same.origin.mono grown, same.fields.mono fun _ _ h => h.mono grown⟩

/-- Two machines that are the same to every program. -/
structure World.Mirrors (w : World) (m : Machine) (l : Lexical.Machine) : Prop where
  size : m.store.frames.size = w.size
  parent : ∀ f, (m.store.frame f).enclosing = w.parent f
  cell : ∀ f x location, w.place f x = some location → ∃ v u,
    (m.store.frame f).bindings.get? x = some v ∧ l.cells[location]? = some u ∧ Same w v u
  placed : ∀ f x v, f ≠ globalFrame → (m.store.frame f).bindings.get? x = some v →
    ∃ location, w.place f x = some location
  globals : Table.Rel (Same w) (m.store.frame globalFrame).bindings l.globals
  names : l.globals.names = w.globals
  objects : ∀ i : ObjectId, Option.Rel (SameObject w) m.objects[i]? l.objects[i]?
  distances : m.distances = w.notes.distances
  sink : m.sink = l.sink
  output : l.sink = w.sink
  clock : m.clock = l.clock

theorem World.Mirrors.globals_mono {m : Machine} {l : Lexical.Machine} (mirrors : w.Mirrors m l)
    (grown : w.Grows opened w') :
    Table.Rel (Same w') (m.store.frame globalFrame).bindings l.globals :=
  mirrors.globals.mono fun _ _ same => same.mono grown

theorem World.Mirrors.objects_mono {m : Machine} {l : Lexical.Machine} (mirrors : w.Mirrors m l)
    (grown : w.Grows opened w') (i : ObjectId) :
    Option.Rel (SameObject w') m.objects[i]? l.objects[i]? := by
  have here := mirrors.objects i
  generalize m.objects[i]? = o at here
  generalize l.objects[i]? = p at here
  cases here with
  | none => exact .none
  | some same => exact .some (same.mono grown)

theorem World.Mirrors.cell_mono {m : Machine} {l : Lexical.Machine} (mirrors : w.Mirrors m l)
    (grown : w.Grows opened w') {f : FrameId} {x : String} {location : Location}
    (located : w.place f x = some location) : ∃ v u,
      (m.store.frame f).bindings.get? x = some v ∧ l.cells[location]? = some u ∧ Same w' v u := by
  obtain ⟨v, u, bound, held, same⟩ := mirrors.cell f x location located
  exact ⟨v, u, bound, held, same.mono grown⟩

end ScopeScript
