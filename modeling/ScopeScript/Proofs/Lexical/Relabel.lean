import ScopeScript.Proofs.Lexical.Evaluate
import ScopeScript.Proofs.Table
import ScopeScript.Proofs.Tree.Relabel

/-! Running code with other numbers and lines. The lexical evaluator never looks at the number of
a node, and at a line only to report it: a change of all labels in the code and in the closures on
the machine changes nothing but the line of an error. -/
namespace ScopeScript

section Values
variable {ε : Type} (r q : Relabel)

def Closure.relabel (f : Closure ε) : Closure ε := { f with declaration := f.declaration.relabel r }

def Class.relabel : Class ε → Class ε
  | mk name none methods => mk name none (methods.map (Closure.relabel r))
  | mk name (some parent) methods => mk name (some parent.relabel) (methods.map (Closure.relabel r))

def Callable.relabel : Callable ε → Callable ε
  | native f => native f
  | function f => function (f.relabel r)
  | ofClass c => ofClass (c.relabel r)

def Value.relabel : Value ε → Value ε
  | number x => number x
  | string contents => string contents
  | boolean b => boolean b
  | nil => nil
  | callable f => callable (f.relabel r)
  | object id => object id

def Object.relabel (o : Object ε) : Object ε :=
  ⟨o.origin.relabel r, o.fields.map (Value.relabel r)⟩

theorem Closure.relabel_relabel (f : Closure ε) :
    (f.relabel q).relabel r = f.relabel (r.comp q) := by
  simp only [Closure.relabel, FunctionDecl.relabel_relabel]

theorem Class.relabel_relabel : ∀ c : Class ε, (c.relabel q).relabel r = c.relabel (r.comp q)
  | mk name none methods => by
    simp only [Class.relabel, Table.map_map, Function.comp_def, Closure.relabel_relabel]
  | mk name (some parent) methods => by
    simp only [Class.relabel, Table.map_map, Function.comp_def, Closure.relabel_relabel,
      Class.relabel_relabel parent]

theorem Value.relabel_relabel (v : Value ε) :
    (v.relabel q).relabel r = v.relabel (r.comp q) := by
  cases v with
  | number _ | string _ | boolean _ | nil | object _ => rfl
  | callable f =>
    cases f with
    | native _ => rfl
    | function f => simp only [Value.relabel, Callable.relabel, Closure.relabel_relabel]
    | ofClass c => simp only [Value.relabel, Callable.relabel, Class.relabel_relabel]

theorem Object.relabel_relabel (o : Object ε) :
    (o.relabel q).relabel r = o.relabel (r.comp q) := by
  simp only [Object.relabel, Class.relabel_relabel, Table.map_map, Function.comp_def,
    Value.relabel_relabel]

theorem Closure.relabel_refl (f : Closure ε) : f.relabel .refl = f := by
  simp only [Closure.relabel, FunctionDecl.relabel_refl]

theorem Class.relabel_refl : ∀ c : Class ε, c.relabel .refl = c
  | mk name none methods => by
    have same : Closure.relabel (ε := ε) .refl = id := funext Closure.relabel_refl
    rw [Class.relabel, same, Table.map_id]
  | mk name (some parent) methods => by
    have same : Closure.relabel (ε := ε) .refl = id := funext Closure.relabel_refl
    rw [Class.relabel, same, Table.map_id, Class.relabel_refl parent]

theorem Value.relabel_refl (v : Value ε) : v.relabel .refl = v := by
  cases v with
  | number _ | string _ | boolean _ | nil | object _ => rfl
  | callable f =>
    cases f with
    | native _ => rfl
    | function f => simp only [Value.relabel, Callable.relabel, Closure.relabel_refl]
    | ofClass c => simp only [Value.relabel, Callable.relabel, Class.relabel_refl]

theorem Object.relabel_refl (o : Object ε) : o.relabel .refl = o := by
  have same : Value.relabel (ε := ε) .refl = id := funext Value.relabel_refl
  rw [Object.relabel, Class.relabel_refl, same, Table.map_id]

end Values

def Stop.relabel (r : Relabel) : Stop → Stop
  | error e => error { e with line := r.line e.line }
  | output e => output e
  | fault f => fault f
  | exhausted => exhausted

/-! What a program sees of a value does not depend on labels. -/

section Seen
variable {ε : Type} (r : Relabel)

@[simp] theorem Closure.relabel_arity (f : Closure ε) : (f.relabel r).arity = f.arity := by
  simp [Closure.arity, Closure.relabel]

@[simp] theorem Class.relabel_name (c : Class ε) : (c.relabel r).name = c.name := by
  obtain ⟨name, _ | parent, methods⟩ := c <;> rfl

@[simp] theorem Class.relabel_method? (name : String) :
    ∀ c : Class ε, (c.relabel r).method? name = (c.method? name).map (Closure.relabel r)
  | mk _ none methods => by simp only [Class.relabel, Class.method?, Table.get?_map]
  | mk _ (some parent) methods => by
    simp only [Class.relabel, Class.method?, Table.get?_map, Class.relabel_method? name parent]
    cases methods.get? name <;> rfl

@[simp] theorem Class.relabel_arity (c : Class ε) : (c.relabel r).arity = c.arity := by
  rw [Class.arity, Class.arity, Class.relabel_method?]
  cases c.method? initName with
  | none => rfl
  | some f => exact f.relabel_arity r

@[simp] theorem Callable.relabel_arity (f : Callable ε) : (f.relabel r).arity = f.arity := by
  cases f with
  | native _ => rfl
  | function f => exact f.relabel_arity r
  | ofClass c => exact c.relabel_arity r

@[simp] theorem Callable.relabel_text (f : Callable ε) : (f.relabel r).text = f.text := by
  cases f with
  | native _ => rfl
  | function f => simp [Callable.relabel, Callable.text, Closure.relabel, Closure.name]
  | ofClass c => exact c.relabel_name r

@[simp] theorem Value.relabel_truthy (v : Value ε) : (v.relabel r).truthy = v.truthy := by
  cases v <;> rfl

theorem Value.relabel_text (objects : Array (Object ε)) (v : Value ε) :
    (v.relabel r).text (objects.map (Object.relabel r)) = v.text objects := by
  cases v with
  | number _ | string _ | nil => rfl
  | boolean b => cases b <;> rfl
  | callable f => exact f.relabel_text r
  | object id =>
    simp only [Value.relabel, Value.text, Array.getElem?_map]
    cases objects[id]? with
    | none => rfl
    | some o => simp [Object.relabel]

theorem UnaryOp.apply_relabel (op : UnaryOp) (v : Value ε) :
    op.apply (v.relabel r) = (op.apply v).map (Value.relabel r) := by
  cases op with
  | not =>
    simp only [UnaryOp.apply, Value.relabel_truthy]
    rfl
  | negate => cases v <;> rfl

theorem BinaryOp.apply_relabel (op : BinaryOp) (v u : Value ε) :
    op.apply (v.relabel r) (u.relabel r) = (op.apply v u).map (Value.relabel r) := by
  have equality (same : Bool) (otherwise : RuntimeCause) : op.equality same otherwise =
      (op.equality same otherwise : Except RuntimeCause (Value ε)).map (Value.relabel r) := by
    cases op <;> rfl
  have onNumbers (a b : Float) : op.onNumbers a b =
      (op.onNumbers a b : Except RuntimeCause (Value ε)).map (Value.relabel r) := by
    cases op with
    | divide =>
      simp only [BinaryOp.onNumbers]
      split <;> rfl
    | add | subtract | multiply | equal | notEqual | greater | greaterEqual | less
    | lessEqual => rfl
  have onStrings (a b : String) : op.onStrings a b =
      (op.onStrings a b : Except RuntimeCause (Value ε)).map (Value.relabel r) := by
    cases op <;> rfl
  cases v <;> cases u <;>
    first
      | exact onNumbers _ _
      | exact onStrings _ _
      | exact equality _ _

end Seen

namespace Lexical

def Machine.relabel (r : Relabel) (m : Machine) : Machine :=
  { m with
    globals := m.globals.map (Value.relabel r)
    cells := m.cells.map (Value.relabel r)
    objects := m.objects.map (Object.relabel r) }

theorem Machine.relabel_relabel (r q : Relabel) (m : Machine) :
    (m.relabel q).relabel r = m.relabel (r.comp q) := by
  simp only [Machine.relabel, Table.map_map, Array.map_map, Function.comp_def,
    Value.relabel_relabel, Object.relabel_relabel]

theorem Machine.relabel_refl (m : Machine) : m.relabel .refl = m := by
  have values : Value.relabel (ε := Names) .refl = id := funext Value.relabel_refl
  have objects : Object.relabel (ε := Names) .refl = id := funext Object.relabel_refl
  simp only [Machine.relabel, values, objects, Table.map_id, Array.map_id]

@[simp] theorem Machine.relabel_sink (r : Relabel) (m : Machine) :
    (m.relabel r).sink = m.sink := rfl

@[simp] theorem Machine.relabel_globalNames (r : Relabel) (m : Machine) :
    (m.relabel r).globalNames = m.globalNames := by
  simp [Machine.relabel, Machine.globalNames, Table.sortedNames]

theorem Machine.relabel_value? (r : Relabel) (m : Machine) (names : Names) (x : String) :
    (m.relabel r).value? names x = (m.value? names x).map (Value.relabel r) := by
  simp only [Machine.value?, Machine.relabel]
  cases names.get? x with
  | some location => exact Array.getElem?_map
  | none => exact Table.get?_map _ _ x

variable {α β γ δ : Type} {r : Relabel}

/-- A result with other labels. -/
def relabelResult (r : Relabel) (f : α → β) :
    EStateM.Result Stop Machine α → EStateM.Result Stop Machine β
  | .ok a m => .ok (f a) (m.relabel r)
  | .error stop m => .error (stop.relabel r) (m.relabel r)

/-- A step that becomes another one when all labels change, and its value by `f`. -/
def Natural (r : Relabel) (f : α → β) (a : Eval α) (b : Eval β) : Prop :=
  ∀ m, b (m.relabel r) = relabelResult r f (a m)

namespace Natural
variable {f : α → β} {g : γ → δ}

theorem pure {a : α} {b : β} (same : f a = b) : Natural r f (Pure.pure a) (Pure.pure b) := by
  intro m
  rw [← same]
  rfl

theorem bind {a : Eval α} {b : Eval β} {next : α → Eval γ} {next' : β → Eval δ}
    (first : Natural r f a b) (second : ∀ x, Natural r g (next x) (next' (f x))) :
    Natural r g (a >>= next) (b >>= next') := by
  intro m
  simp only [Bind.bind, EStateM.bind, first m]
  cases a m with
  | ok x m' => exact second x m'
  | error stop m' => rfl

theorem get : Natural r (Machine.relabel r) MonadState.get MonadState.get := fun _ => rfl

theorem throw {stop stop' : Stop} (same : stop.relabel r = stop') :
    Natural r f (MonadExcept.throw stop) (MonadExcept.throw stop') := by
  intro m
  rw [← same]
  rfl

theorem fail (cause : RuntimeCause) (l : Lexeme) :
    Natural r f (Eval.fail cause l) (Eval.fail cause (l.relabel r)) := throw rfl

theorem orFail (sign : Lexeme) (result : Except RuntimeCause (Value Names)) :
    Natural r (Value.relabel r) (Eval.orFail sign result)
      (Eval.orFail (sign.relabel r) (result.map (Value.relabel r))) := by
  cases result with
  | ok v => exact .pure rfl
  | error cause => exact .fail cause sign

theorem put (names : Names) (x : String) (v : Value Names) :
    Natural r id (Eval.put names x v) (Eval.put names x (v.relabel r)) := by
  intro m
  simp only [Eval.put]
  cases names.get? x with
  | some location =>
    simp only [relabelResult, Machine.relabel, Array.map_setIfInBounds, id_eq]
  | none =>
    simp only [relabelResult, Machine.relabel, Table.map_insert, id_eq]

theorem newCell (v : Value Names) : Natural r id (Eval.newCell v) (Eval.newCell (v.relabel r)) := by
  intro m
  simp only [Eval.newCell, relabelResult, Machine.relabel, Array.size_map, Array.map_push]
  rfl

theorem declare (scope : Scope) (x : String) (v : Value Names) :
    Natural r id (Eval.declare scope x v) (Eval.declare scope x (v.relabel r)) := by
  cases scope with
  | top => exact (put {} x v).bind fun _ => .pure rfl
  | inner names => exact (newCell v).bind fun _ => .pure rfl

theorem declareEach (scope : Scope) (params : List String) (arguments : List (Value Names)) :
    Natural r id (Eval.declareEach scope (params.zip arguments))
      (Eval.declareEach scope (params.zip (arguments.map (Value.relabel r)))) := by
  induction params generalizing scope arguments with
  | nil => exact .pure rfl
  | cons p rest ih =>
    cases arguments with
    | nil => exact .pure rfl
    | cons v others => exact (declare scope p v).bind fun scope => ih scope others

theorem readName (names : Names) (name : Lexeme) :
    Natural r (Value.relabel r) (Eval.readName names name)
      (Eval.readName names (name.relabel r)) := by
  apply Natural.get.bind
  intro m
  rw [Lexeme.relabel_text, Machine.relabel_value?]
  cases m.value? names name.text with
  | some v => exact .pure rfl
  | none => exact .fail _ name

theorem writeName (names : Names) (name : Lexeme) (v : Value Names) :
    Natural r id (Eval.writeName names name v)
      (Eval.writeName names (name.relabel r) (v.relabel r)) :=
  (readName names name).bind fun _ => put names name.text v

theorem newObject (c : Class Names) :
    Natural r id (Eval.newObject c) (Eval.newObject (c.relabel r)) := by
  intro m
  simp only [Eval.newObject, relabelResult, Machine.relabel, Array.size_map, Array.map_push]
  rfl

theorem setField (object : ObjectId) (x : String) (v : Value Names) :
    Natural r id (Eval.setField object x v) (Eval.setField object x (v.relabel r)) := by
  intro m
  have changed : (m.objects.map (Object.relabel r)).modify object
      (fun o => { o with fields := o.fields.insert x (v.relabel r) }) =
      (m.objects.modify object fun o => { o with fields := o.fields.insert x v }).map
        (Object.relabel r) := by
    apply Array.ext
    · simp
    · intro i _ _
      simp only [Array.getElem_modify, Array.getElem_map]
      split
      · simp only [Object.relabel, Table.map_insert]
      · rfl
  simp only [Eval.setField, relabelResult, Machine.relabel, changed, id_eq]

theorem bindMethod (method : Closure Names) (object : ObjectId) :
    Natural r (Closure.relabel r) (Eval.bindMethod method object)
      (Eval.bindMethod (method.relabel r) object) :=
  (declare (.inner method.scope) thisName (.object object)).bind fun _ => .pure rfl

theorem readProperty (object : ObjectId) (name : Lexeme) :
    Natural r (Value.relabel r) (Eval.readProperty object name)
      (Eval.readProperty object (name.relabel r)) := by
  apply Natural.get.bind
  intro m
  rw [Lexeme.relabel_text]
  have objects : (m.relabel r).objects[object]? = m.objects[object]?.map (Object.relabel r) :=
    Array.getElem?_map
  rw [objects]
  cases m.objects[object]? with
  | none => exact .fail _ name
  | some o =>
    simp only [Option.map_some, Option.bind_some, Object.relabel, Table.get?_map]
    cases o.fields.get? name.text with
    | some v => exact .pure rfl
    | none =>
      simp only [Option.map_none, Class.relabel_method?]
      cases o.origin.method? name.text with
      | none => exact .fail _ name
      | some method => exact (bindMethod method object).bind fun _ => .pure rfl

theorem readClock : Natural r id Eval.readClock Eval.readClock := fun _ => rfl

theorem print (v : Value Names) : Natural r id (Eval.print v) (Eval.print (v.relabel r)) := by
  intro m
  simp only [Eval.print, Machine.relabel, Value.relabel_text]
  split <;> rfl

theorem flush : Natural r id Eval.flush Eval.flush := by
  intro m
  by_cases flushable : m.sink.flushable = true
  · simp only [Eval.flush, Machine.relabel, flushable, if_true]
    rfl
  · simp only [Eval.flush, Machine.relabel, flushable]
    rfl

end Natural

end Lexical
end ScopeScript
