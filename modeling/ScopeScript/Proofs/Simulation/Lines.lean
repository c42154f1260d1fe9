import ScopeScript.Proofs.Lexical.Relabel
import ScopeScript.Proofs.Scope.Lines
import ScopeScript.Proofs.Simulation.Relation

/-! Machines whose code stands on other lines. Machines that are the same to every program still
are when the lines of all code on both of them change alike. -/
namespace ScopeScript
open Lexical (Names)

/-- A change of all values in a store. -/
def Store.map {α β : Type} (f : α → β) (s : Store α) : Store β :=
  ⟨s.frames.map fun frame => { frame with bindings := frame.bindings.map f }⟩

section
variable {α β : Type} (f : α → β) (s : Store α) (g : FrameId)

@[simp] theorem Store.size_map : (s.map f).frames.size = s.frames.size := Array.size_map

theorem Store.frame_map :
    (s.map f).frame g = { s.frame g with bindings := (s.frame g).bindings.map f } := by
  simp only [Store.frame, Store.map, Array.getD_eq_getD_getElem?, Array.getElem?_map]
  cases s.frames[g]? <;> rfl

end

/-- The machine with other labels in the code of its functions, methods and classes. -/
def Machine.relabel (r : Relabel) (m : Machine) : Machine :=
  { m with store := m.store.map (Value.relabel r), objects := m.objects.map (Object.relabel r) }

variable {w : World} (line : Nat → Nat)

theorem SameClosure.lines {f : Closure} {g : Closure Names} {inside : Context → Context}
    (same : SameClosure w f g inside) :
    SameClosure w (f.relabel (.lines line)) (g.relabel (.lines line)) inside := by
  obtain ⟨declaration, isInit, c, linked, agrees, this⟩ := same
  exact ⟨congrArg (FunctionDecl.relabel _) declaration, isInit, c, linked,
    f.declaration.scoped_lines line agrees, this⟩

theorem SameClass.lines {c : Class} {d : Class Names} (same : SameClass w c d) :
    SameClass w (c.relabel (.lines line)) (d.relabel (.lines line)) := by
  induction same with
  | base methods => exact .base (methods.map fun _ _ h => h.lines line)
  | derived _ methods ih => exact .derived ih (methods.map fun _ _ h => h.lines line)

theorem Same.lines {v : Value} {u : Value Names} (same : Same w v u) :
    Same w (v.relabel (.lines line)) (u.relabel (.lines line)) := by
  cases same with
  | number value => exact .number value
  | string contents => exact .string contents
  | boolean value => exact .boolean value
  | nil => exact .nil
  | object id => exact .object id
  | callable same =>
    cases same with
    | native f => exact .callable (.native f)
    | function same => exact .callable (.function (same.lines line))
    | ofClass same => exact .callable (.ofClass (same.lines line))

theorem SameObject.lines {o : Object} {p : Object Names} (same : SameObject w o p) :
    SameObject w (o.relabel (.lines line)) (p.relabel (.lines line)) :=
  ⟨same.origin.lines line, same.fields.map fun _ _ h => h.lines line⟩

/-- Locations, names and notes say nothing about lines, so the world stays the same. -/
theorem World.Mirrors.lines {m : Machine} {l : Lexical.Machine} (mirrors : w.Mirrors m l) :
    w.Mirrors (m.relabel (.lines line)) (l.relabel (.lines line)) where
  size := (Store.size_map _ _).trans mirrors.size
  parent f := by
    rw [Machine.relabel, Store.frame_map]
    exact mirrors.parent f
  cell f x location located := by
    obtain ⟨v, u, bound, held, same⟩ := mirrors.cell f x location located
    refine ⟨_, _, ?_, ?_, same.lines line⟩
    · rw [Machine.relabel, Store.frame_map, Table.get?_map, bound, Option.map_some]
    · rw [Lexical.Machine.relabel, Array.getElem?_map, held, Option.map_some]
  placed f x v inner bound := by
    rw [Machine.relabel, Store.frame_map, Table.get?_map] at bound
    obtain ⟨before, bound, _⟩ := Option.map_eq_some_iff.mp bound
    exact mirrors.placed f x before inner bound
  globals := by
    rw [Machine.relabel, Store.frame_map]
    exact mirrors.globals.map fun _ _ same => same.lines line
  names := (Table.names_map _ _).trans mirrors.names
  objects i := by
    have here := mirrors.objects i
    simp only [Machine.relabel, Lexical.Machine.relabel, Array.getElem?_map]
    generalize m.objects[i]? = o at here
    generalize l.objects[i]? = p at here
    cases here with
    | none => exact .none
    | some same => exact .some (same.lines line)
  distances := mirrors.distances
  sink := mirrors.sink
  output := mirrors.output
  clock := mirrors.clock

end ScopeScript
