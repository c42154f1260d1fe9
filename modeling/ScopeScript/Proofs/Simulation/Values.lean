import ScopeScript.Proofs.Simulation.Step

/-! Operators, printing and objects on the two machines. -/
namespace ScopeScript
open Lexical (Names)

variable {w : World} {opened : Option FrameId} {m : Machine} {l : Lexical.Machine}

/-! What values look like to a program does not depend on the machine. -/

theorem Same.truthy_eq {v : Value} {u : Value Names} (same : Same w v u) :
    v.truthy = u.truthy := by
  cases same <;> rfl

theorem Same.decides_eq {v : Value} {u : Value Names} (same : Same w v u) (op : LogicalOp) :
    op.decides v = op.decides u := by
  cases op <;> simp only [LogicalOp.decides, same.truthy_eq]

theorem SameClass.name_eq {c : Class} {d : Class Names} (same : SameClass w c d) :
    c.name = d.name := by
  cases same <;> rfl

theorem SameClosure.name_eq {f : Closure} {g : Closure Names} {inside : Context → Context}
    (same : SameClosure w f g inside) : f.name = g.name := by
  rw [Closure.name, Closure.name, same.declaration]

theorem SameClosure.arity_eq {f : Closure} {g : Closure Names} {inside : Context → Context}
    (same : SameClosure w f g inside) : f.arity = g.arity := by
  rw [Closure.arity, Closure.arity, same.declaration]

theorem SameClass.method? {c : Class} {d : Class Names} (same : SameClass w c d) (name : String) :
    (c.method? name = none ∧ d.method? name = none) ∨
      ∃ f g, c.method? name = some f ∧ d.method? name = some g ∧ SameMethod w f g := by
  induction same with
  | base methods => exact methods.get?_cases name
  | derived _ methods ih =>
    simp only [Class.method?]
    rcases methods.get?_cases name with ⟨left, right⟩ | ⟨f, g, left, right, same⟩
    · rw [left, right]
      exact ih
    · rw [left, right]
      exact .inr ⟨f, g, rfl, rfl, same⟩

theorem SameClass.arity_eq {c : Class} {d : Class Names} (same : SameClass w c d) :
    c.arity = d.arity := by
  rw [Class.arity, Class.arity]
  rcases same.method? initName with ⟨left, right⟩ | ⟨f, g, left, right, same⟩
  · rw [left, right]
    rfl
  · rw [left, right]
    exact same.arity_eq

theorem SameCallable.arity_eq {f : Callable} {g : Callable Names} (same : SameCallable w f g) :
    f.arity = g.arity := by
  cases same with
  | native f => rfl
  | function same => exact same.arity_eq
  | ofClass same => exact same.arity_eq

theorem SameCallable.text_eq {f : Callable} {g : Callable Names} (same : SameCallable w f g) :
    f.text = g.text := by
  cases same with
  | native f => rfl
  | function same => rw [Callable.text, Callable.text, same.name_eq]
  | ofClass same => exact same.name_eq

theorem World.Mirrors.text_eq (mirrors : w.Mirrors m l) {v : Value} {u : Value Names}
    (same : Same w v u) : v.text m.objects = u.text l.objects := by
  cases same with
  | number value | string contents | nil => rfl
  | boolean value => cases value <;> rfl
  | callable same => exact same.text_eq
  | object id =>
    have here := mirrors.objects id
    simp only [Value.text]
    generalize m.objects[id]? = left at here
    generalize l.objects[id]? = right at here
    cases here with
    | none => rfl
    | some same => simp only [Option.elim_some, same.origin.name_eq]

theorem World.Mirrors.size_objects (mirrors : w.Mirrors m l) :
    m.objects.size = l.objects.size := by
  have same (i : ObjectId) : m.objects[i]? = none ↔ l.objects[i]? = none := by
    have here := mirrors.objects i
    generalize m.objects[i]? = left at here
    generalize l.objects[i]? = right at here
    cases here <;> simp
  simp only [Array.getElem?_eq_none_iff] at same
  have first := (same m.objects.size).mp (Nat.le_refl _)
  have second := (same l.objects.size).mpr (Nat.le_refl _)
  exact Nat.le_antisymm second first

/-- Results of an operator. -/
def SameResult (w : World) : Except RuntimeCause Value → Except RuntimeCause (Value Names) → Prop
  | .ok v, .ok u => Same w v u
  | .error cause, .error other => cause = other
  | _, _ => False

theorem UnaryOp.same_apply (op : UnaryOp) {v : Value} {u : Value Names} (same : Same w v u) :
    SameResult w (op.apply v) (op.apply u) := by
  cases op with
  | not =>
    simp only [UnaryOp.apply, same.truthy_eq]
    exact .boolean _
  | negate =>
    cases same with
    | number value => exact .number _
    | string _ | boolean _ | nil | callable _ | object _ => rfl

namespace BinaryOp

theorem same_equality (op : BinaryOp) (same : Bool) (otherwise : RuntimeCause) :
    SameResult w (op.equality same otherwise) (op.equality same otherwise) := by
  cases op with
  | equal | notEqual => exact .boolean _
  | add | subtract | multiply | divide | greater | greaterEqual | less | lessEqual => rfl

theorem same_onNumbers (op : BinaryOp) (a b : Float) :
    SameResult w (op.onNumbers a b) (op.onNumbers a b) := by
  cases op with
  | add | subtract | multiply => exact .number _
  | divide =>
    simp only [onNumbers]
    split
    · rfl
    · exact .number _
  | equal | notEqual | greater | greaterEqual | less | lessEqual => exact .boolean _

theorem same_onStrings (op : BinaryOp) (a b : String) :
    SameResult w (op.onStrings a b) (op.onStrings a b) := by
  unfold onStrings
  split
  · exact .string _
  · exact op.same_equality _ _

theorem same_apply (op : BinaryOp) {v v' : Value} {u u' : Value Names} (left : Same w v u)
    (right : Same w v' u') : SameResult w (op.apply v v') (op.apply u u') := by
  cases left <;> cases right <;>
    first
      | exact op.same_onNumbers _ _
      | exact op.same_onStrings _ _
      | exact op.same_equality _ _

end BinaryOp

namespace Sim

theorem fail {α β : Type} {R : World → α → β → Prop} (cause : RuntimeCause) (place : Lexeme) :
    Sim opened w R (Eval.fail cause place) (Lexical.Eval.fail cause place) :=
  .throw nofun

theorem orFail {p : Except RuntimeCause Value} {q : Except RuntimeCause (Value Names)}
    (sign : Lexeme) (same : SameResult w p q) :
    Sim opened w Same (Eval.orFail sign p) (Lexical.Eval.orFail sign q) := by
  cases p with
  | ok v =>
    cases q with
    | ok u => exact .pure same
    | error other => exact same.elim
  | error cause =>
    cases q with
    | ok u => exact same.elim
    | error other =>
      cases same
      exact .fail cause sign

theorem print {v : Value} {u : Value Names} (same : Same w v u) :
    Sim opened w (fun _ _ _ => True) (Eval.print v) (Lexical.Eval.print u) := by
  intro m l mirrors
  simp only [Eval.print, Lexical.Eval.print, mirrors.text_eq same, mirrors.sink]
  generalize (u.text l.objects ++ "\n").toUTF8 = bytes
  have grown : w.Grows opened (w.withSink (l.sink.write bytes)) :=
    World.grows_withSink (mirrors.output ▸ l.sink.write_extends bytes)
  have printed : (w.withSink (l.sink.write bytes)).Mirrors
      { m with sink := l.sink.write bytes } { l with sink := l.sink.write bytes } :=
    { mirrors with
      cell := fun _ _ _ located => mirrors.cell_mono grown located
      globals := mirrors.globals_mono grown
      objects := mirrors.objects_mono grown
      sink := rfl
      output := rfl }
  split
  · exact ⟨_, ⟨grown, rfl⟩, printed, trivial⟩
  · exact ⟨rfl, nofun, _, ⟨grown, rfl⟩, printed⟩

theorem flush : Sim opened w (fun _ _ _ => True) Eval.flush Lexical.Eval.flush := by
  intro m l mirrors
  simp only [Eval.flush, Lexical.Eval.flush, mirrors.sink]
  split
  · exact ⟨w, .refl w opened, mirrors, trivial⟩
  · exact ⟨rfl, nofun, w, .refl w opened, mirrors⟩

theorem readClock :
    Sim opened w (fun _ a b => a = b) Eval.readClock Lexical.Eval.readClock := by
  intro m l mirrors
  simp only [Eval.readClock, Lexical.Eval.readClock, mirrors.clock]
  exact ⟨w, .refl w opened, { mirrors with clock := rfl }, rfl⟩

theorem newObject {c : Class} {d : Class Names} (same : SameClass w c d) :
    Sim opened w (fun _ a b => a = b) (Eval.newObject c) (Lexical.Eval.newObject d) := by
  intro m l mirrors
  have size : m.objects.size = l.objects.size := mirrors.size_objects
  refine ⟨w, .refl w opened, { mirrors with objects := fun i => ?_ }, size⟩
  simp only [Array.getElem?_push, size]
  split
  · exact .some ⟨same, .empty⟩
  · exact mirrors.objects i

theorem setField (object : ObjectId) (name : String) {v : Value} {u : Value Names}
    (same : Same w v u) :
    Sim opened w (fun _ _ _ => True) (Eval.setField object name v)
      (Lexical.Eval.setField object name u) := by
  intro m l mirrors
  refine ⟨w, .refl w opened, { mirrors with objects := fun i => ?_ }, trivial⟩
  have here := mirrors.objects i
  simp only [Array.getElem?_modify]
  split
  · generalize m.objects[i]? = left at here
    generalize l.objects[i]? = right at here
    cases here with
    | none => exact .none
    | some here => exact .some ⟨here.origin, here.fields.insert name same⟩
  · exact here

end Sim
end ScopeScript
