import ScopeScript.Proofs.Lexical.Evaluate
import ScopeScript.Proofs.Operators
import ScopeScript.Proofs.Rename.Code
import ScopeScript.Proofs.Table

/-! Lexical machines that run renamed code. Their closures keep different maps, but a name of the
one code is found where the name that it has become is found in the other. -/
namespace ScopeScript
open Lexical (Location Names Scope)

variable {r : NameChange}

/-! Arrays with related entries. -/

section Arrays
variable {α β : Type} {R : α → β → Prop} {xs : Array α} {ys : Array β}

def RelEach (R : α → β → Prop) (xs : Array α) (ys : Array β) : Prop :=
  ∀ i : Nat, Option.Rel R xs[i]? ys[i]?

theorem RelEach.size_eq (rel : RelEach R xs ys) : xs.size = ys.size := by
  have same (i : Nat) : xs[i]? = none ↔ ys[i]? = none := by
    have here := rel i
    generalize xs[i]? = left at here
    generalize ys[i]? = right at here
    cases here <;> simp
  simp only [Array.getElem?_eq_none_iff] at same
  have first := (same xs.size).mp (Nat.le_refl _)
  have second := (same ys.size).mpr (Nat.le_refl _)
  exact Nat.le_antisymm second first

theorem RelEach.mono {S : α → β → Prop} (rel : RelEach R xs ys) (weaker : ∀ x y, R x y → S x y) :
    RelEach S xs ys := by
  intro i
  have here := rel i
  generalize xs[i]? = left at here
  generalize ys[i]? = right at here
  cases here with
  | none => exact .none
  | some related => exact .some (weaker _ _ related)

theorem RelEach.push (rel : RelEach R xs ys) {x : α} {y : β} (related : R x y) :
    RelEach R (xs.push x) (ys.push y) := by
  intro i
  simp only [Array.getElem?_push, rel.size_eq]
  split
  · exact .some related
  · exact rel i

theorem RelEach.modify (rel : RelEach R xs ys) (i : Nat) {f : α → α} {g : β → β}
    (keeps : ∀ x y, R x y → R (f x) (g y)) : RelEach R (xs.modify i f) (ys.modify i g) := by
  intro j
  have here := rel j
  simp only [Array.getElem?_modify]
  generalize xs[j]? = left at here
  generalize ys[j]? = right at here
  split
  · cases here with
    | none => exact .none
    | some related => exact .some (keeps _ _ related)
  · exact here

theorem RelEach.setIfInBounds (rel : RelEach R xs ys) (i : Nat) {x : α} {y : β}
    (related : R x y) : RelEach R (xs.setIfInBounds i x) (ys.setIfInBounds i y) := by
  intro j
  simp only [Array.getElem?_setIfInBounds, rel.size_eq]
  split
  · split
    · exact .some related
    · exact .none
  · exact rel j

end Arrays

/-! Values. -/

/-- The maps of two closures of renamed code: names are found alike, and `n` cells are enough to
hold all that is found. -/
structure Lexical.Maps (r : NameChange) (n : Nat) (moved : Bool) (names names' : Names) : Prop where
  sees : Sees r moved names.get? names'.get?
  held : ∀ z location, names.get? z = some location → location < n

/-- Closures of renamed code. -/
structure Closure.Renamed (r : NameChange) (n : Nat) (f f' : Closure Names) : Prop where
  isInit : f'.isInit = f.isInit
  code : ∃ moved, Lexical.Maps r n moved f.scope f'.scope ∧
    f.declaration.Renamed r moved f'.declaration

inductive Class.Renamed (r : NameChange) (n : Nat) : Class Names → Class Names → Prop where
  | base {name : String} {methods methods' : Table (Closure Names)}
    (same : Table.Rel (Closure.Renamed r n) methods methods') :
    Class.Renamed r n (.mk name none methods) (.mk name none methods')
  | derived {name : String} {parent parent' : Class Names}
    {methods methods' : Table (Closure Names)} (above : Class.Renamed r n parent parent')
    (same : Table.Rel (Closure.Renamed r n) methods methods') :
    Class.Renamed r n (.mk name (some parent) methods) (.mk name (some parent') methods')

inductive Callable.Renamed (r : NameChange) (n : Nat) : Callable Names → Callable Names → Prop where
  | native (f : Native) : Callable.Renamed r n (.native f) (.native f)
  | function {f f' : Closure Names} (same : f.Renamed r n f') :
    Callable.Renamed r n (.function f) (.function f')
  | ofClass {c c' : Class Names} (same : c.Renamed r n c') :
    Callable.Renamed r n (.ofClass c) (.ofClass c')

inductive Value.Renamed (r : NameChange) (n : Nat) : Value Names → Value Names → Prop where
  | number (value : Float) : Value.Renamed r n (.number value) (.number value)
  | string (contents : String) : Value.Renamed r n (.string contents) (.string contents)
  | boolean (value : Bool) : Value.Renamed r n (.boolean value) (.boolean value)
  | nil : Value.Renamed r n .nil .nil
  | callable {f f' : Callable Names} (same : f.Renamed r n f') :
    Value.Renamed r n (.callable f) (.callable f')
  | object (id : ObjectId) : Value.Renamed r n (.object id) (.object id)

structure Object.Renamed (r : NameChange) (n : Nat) (o o' : Object Names) : Prop where
  origin : o.origin.Renamed r n o'.origin
  fields : Table.Rel (Value.Renamed r n) o.fields o'.fields

variable {n n' : Nat}

/-! More cells hold the same. -/

theorem Lexical.Maps.mono {moved : Bool} {names names' : Names}
    (maps : Lexical.Maps r n moved names names') (more : n ≤ n') :
    Lexical.Maps r n' moved names names' :=
  ⟨maps.sees, fun z location found => Nat.lt_of_lt_of_le (maps.held z location found) more⟩

theorem Closure.Renamed.mono {f f' : Closure Names} (same : f.Renamed r n f') (more : n ≤ n') :
    f.Renamed r n' f' := by
  obtain ⟨isInit, moved, maps, renamed⟩ := same
  exact ⟨isInit, moved, maps.mono more, renamed⟩

theorem Class.Renamed.mono {c c' : Class Names} (same : c.Renamed r n c') (more : n ≤ n') :
    c.Renamed r n' c' := by
  induction same with
  | base methods => exact .base (methods.mono fun _ _ same => same.mono more)
  | derived _ methods ih => exact .derived ih (methods.mono fun _ _ same => same.mono more)

theorem Value.Renamed.mono {v v' : Value Names} (same : v.Renamed r n v') (more : n ≤ n') :
    v.Renamed r n' v' := by
  cases same with
  | number value => exact .number value
  | string contents => exact .string contents
  | boolean value => exact .boolean value
  | nil => exact .nil
  | object id => exact .object id
  | callable same =>
    cases same with
    | native f => exact .callable (.native f)
    | function same => exact .callable (.function (same.mono more))
    | ofClass same => exact .callable (.ofClass (same.mono more))

theorem Object.Renamed.mono {o o' : Object Names} (same : o.Renamed r n o') (more : n ≤ n') :
    o.Renamed r n' o' :=
  ⟨same.origin.mono more, same.fields.mono fun _ _ same => same.mono more⟩

/-! A program does not see the difference. -/

theorem Value.Renamed.truthy_eq {v v' : Value Names} (same : v.Renamed r n v') :
    v'.truthy = v.truthy := by
  cases same <;> rfl

theorem Value.Renamed.decides_eq {v v' : Value Names} (same : v.Renamed r n v') (op : LogicalOp) :
    op.decides v' = op.decides v := by
  cases op <;> simp only [LogicalOp.decides, same.truthy_eq]

theorem Closure.Renamed.name_eq {f f' : Closure Names} (same : f.Renamed r n f') :
    f'.name = f.name := by
  obtain ⟨_, _, _, renamed⟩ := same
  rw [Closure.name, Closure.name, renamed.name_eq]

theorem Closure.Renamed.arity_eq {f f' : Closure Names} (same : f.Renamed r n f') :
    f'.arity = f.arity := by
  obtain ⟨_, _, _, renamed⟩ := same
  rw [Closure.arity, Closure.arity]
  generalize f.declaration = d at renamed
  generalize f'.declaration = d' at renamed
  cases renamed with
  | mk declares _ => exact declares.length_eq

theorem Class.Renamed.name_eq {c c' : Class Names} (same : c.Renamed r n c') :
    c'.name = c.name := by
  cases same <;> rfl

theorem Class.Renamed.method?_cases {c c' : Class Names} (same : c.Renamed r n c') (name : String) :
    (c.method? name = none ∧ c'.method? name = none) ∨
      ∃ f f', c.method? name = some f ∧ c'.method? name = some f' ∧ f.Renamed r n f' := by
  induction same with
  | base methods => exact methods.get?_cases name
  | derived _ methods ih =>
    simp only [Class.method?]
    rcases methods.get?_cases name with ⟨left, right⟩ | ⟨f, f', left, right, same⟩
    · rw [left, right]
      exact ih
    · rw [left, right]
      exact .inr ⟨f, f', rfl, rfl, same⟩

theorem Class.Renamed.arity_eq {c c' : Class Names} (same : c.Renamed r n c') :
    c'.arity = c.arity := by
  rw [Class.arity, Class.arity]
  rcases same.method?_cases initName with ⟨left, right⟩ | ⟨f, f', left, right, same⟩
  · rw [left, right]
  · rw [left, right]
    exact same.arity_eq

theorem Callable.Renamed.arity_eq {f f' : Callable Names} (same : f.Renamed r n f') :
    f'.arity = f.arity := by
  cases same with
  | native f => rfl
  | function same => exact same.arity_eq
  | ofClass same => exact same.arity_eq

theorem Callable.Renamed.text_eq {f f' : Callable Names} (same : f.Renamed r n f') :
    f'.text = f.text := by
  cases same with
  | native f => rfl
  | function same => rw [Callable.text, Callable.text, same.name_eq]
  | ofClass same => exact same.name_eq

theorem Value.Renamed.text_eq {v v' : Value Names} (same : v.Renamed r n v')
    {objects objects' : Array (Object Names)}
    (rel : RelEach (Object.Renamed r n) objects objects') : v'.text objects' = v.text objects := by
  cases same with
  | number value | string contents | nil => rfl
  | boolean value => cases value <;> rfl
  | callable same => exact same.text_eq
  | object id =>
    have here := rel id
    simp only [Value.text]
    generalize objects[id]? = left at here
    generalize objects'[id]? = right at here
    cases here with
    | none => rfl
    | some same => simp only [Option.elim_some, same.origin.name_eq]

/-! Operators give the same results, none of which is a function or a class. -/

/-- Values that hold no code. -/
def Value.isData : Value Names → Bool
  | .callable _ => false
  | _ => true

theorem Value.renamed_of_isData {v : Value Names} (data : v.isData = true) : v.Renamed r n v := by
  cases v with
  | callable _ => contradiction
  | number _ | string _ | boolean _ | nil | object _ => constructor

theorem UnaryOp.apply_eq (op : UnaryOp) {v v' : Value Names} (same : v.Renamed r n v') :
    op.apply v' = op.apply v := by
  cases op with
  | not => simp only [UnaryOp.apply, same.truthy_eq]
  | negate => cases same <;> rfl

theorem BinaryOp.apply_eq (op : BinaryOp) {v v' u u' : Value Names} (left : v.Renamed r n v')
    (right : u.Renamed r n u') : op.apply v' u' = op.apply v u := by
  cases left <;> cases right <;> rfl

theorem Value.isData_of_isScalar {v : Value Names} (scalar : v.isScalar = true) : v.isData = true := by
  cases v with
  | number _ | string _ | boolean _ | nil => rfl
  | callable _ | object _ => contradiction

theorem UnaryOp.isData_apply (op : UnaryOp) {v w : Value Names} (result : op.apply v = .ok w) :
    w.isData = true := Value.isData_of_isScalar (isScalar_apply result)

theorem BinaryOp.isData_apply (op : BinaryOp) {v u w : Value Names} (result : op.apply v u = .ok w) :
    w.isData = true := Value.isData_of_isScalar (isScalar_apply result)

namespace Lexical
variable {α β γ δ : Type}

/-! Machines and the steps on them. -/

structure Machine.Renamed (r : NameChange) (m m' : Machine) : Prop where
  globals : Table.Rel (Value.Renamed r m.cells.size) m.globals m'.globals
  cells : RelEach (Value.Renamed r m.cells.size) m.cells m'.cells
  objects : RelEach (Object.Renamed r m.cells.size) m.objects m'.objects
  sink : m'.sink = m.sink
  clock : m'.clock = m.clock

/-- Code that stands alike on both machines. -/
inductive Scope.Renamed (r : NameChange) (n : Nat) : Sight → Scope → Scope → Prop where
  | top : Scope.Renamed r n .top .top .top
  | inner {moved : Bool} {names names' : Names} (maps : Maps r n moved names names') :
    Scope.Renamed r n (.inside moved) (.inner names) (.inner names')

namespace Scope.Renamed
variable {sight : Sight} {scope scope' : Scope}

theorem maps (same : scope.Renamed r n sight scope') :
    Maps r n sight.moved scope.names scope'.names := by
  cases same with
  | top => exact ⟨.refl r _, nofun⟩
  | inner maps => exact maps

theorem mono (same : scope.Renamed r n sight scope') (more : n ≤ n') :
    scope.Renamed r n' sight scope' := by
  cases same with
  | top => exact .top
  | inner maps => exact .inner (maps.mono more)

end Scope.Renamed

/-- Results on the two machines that had `n` cells. Values are related by `R`. -/
def Ends (r : NameChange) (n : Nat) (R : Nat → α → β → Prop) :
    EStateM.Result Stop Machine α → EStateM.Result Stop Machine β → Prop
  | .ok a m, .ok b m' => n ≤ m.cells.size ∧ m.Renamed r m' ∧ R m.cells.size a b
  | .error stop m, .error stop' m' => stop' = stop ∧ m.Renamed r m'
  | _, _ => False

theorem Ends.weaken {R : Nat → α → β → Prop} {p : EStateM.Result Stop Machine α}
    {q : EStateM.Result Stop Machine β} (ends : Ends r n' R p q) (less : n ≤ n') :
    Ends r n R p q := by
  cases p with
  | ok a m =>
    cases q with
    | ok b m' => exact ⟨Nat.le_trans less ends.1, ends.2⟩
    | error stop' m' => exact ends
  | error stop m =>
    cases q with
    | ok b m' => exact ends
    | error stop' m' => exact ends

/-- Two steps that end alike on machines with `n` cells. -/
def Parallel (r : NameChange) (n : Nat) (R : Nat → α → β → Prop) (a : Eval α) (b : Eval β) : Prop :=
  ∀ m m', m.Renamed r m' → m.cells.size = n → Ends r n R (a m) (b m')

namespace Parallel
variable {R : Nat → α → β → Prop} {S : Nat → γ → δ → Prop}

theorem pure {a : α} {b : β} (related : R n a b) : Parallel r n R (Pure.pure a) (Pure.pure b) := by
  rintro m m' machines rfl
  exact ⟨Nat.le_refl _, machines, related⟩

theorem throw {stop : Stop} : Parallel r n R (MonadExcept.throw stop) (MonadExcept.throw stop) :=
  fun _ _ machines _ => ⟨rfl, machines⟩

theorem bind {a : Eval α} {b : Eval β} {f : α → Eval γ} {g : β → Eval δ}
    (first : Parallel r n R a b)
    (next : ∀ n' x y, n ≤ n' → R n' x y → Parallel r n' S (f x) (g y)) :
    Parallel r n S (a >>= f) (b >>= g) := by
  intro m m' machines size
  have here := first m m' machines size
  simp only [Bind.bind, EStateM.bind]
  generalize a m = left at here
  generalize b m' = right at here
  cases left with
  | error stop l =>
    cases right with
    | error stop' l' => exact here
    | ok y l' => exact here.elim
  | ok x l =>
    cases right with
    | error stop' l' => exact here.elim
    | ok y l' =>
      obtain ⟨more, machines, related⟩ := here
      exact (next _ x y more related l l' machines rfl).weaken more

/-- Steps that look at the machine first. -/
theorem get {f g : Machine → Eval γ} {S : Nat → γ → γ → Prop}
    (next : ∀ m m', m.Renamed r m' → m.cells.size = n → Parallel r n S (f m) (g m')) :
    Parallel r n S (MonadState.get >>= f) (MonadState.get >>= g) :=
  fun m m' machines size => next m m' machines size m m' machines size

theorem fail (cause : RuntimeCause) (l : Lexeme) :
    Parallel r n R (Eval.fail cause l) (Eval.fail cause l) := throw

theorem orFail (sign : Lexeme) {result : Except RuntimeCause (Value Names)}
    (data : ∀ v, result = .ok v → v.isData = true) :
    Parallel r n (Value.Renamed r) (Eval.orFail sign result) (Eval.orFail sign result) := by
  cases result with
  | ok v => exact .pure (Value.renamed_of_isData (data v rfl))
  | error cause => exact .fail cause sign

end Parallel

/-- A name of the one code and what it has become in the other: both are found at one location, or
it is one name and global. -/
structure Found (n : Nat) (names names' : Names) (x x' : String) : Prop where
  same : names'.get? x' = names.get? x
  held : ∀ location, names.get? x = some location → location < n
  global : names.get? x = none → x' = x

variable {moved : Bool} {sight behind : Sight} {names names' : Names} {scope scope' : Scope}
  {name name' : Lexeme} {x x' : String} {v v' : Value Names}

namespace Found

theorem of_use (maps : Maps r n moved names names') (use : r.Uses moved name name') :
    Found n names names' name.text name'.text where
  same := (maps.sees.use use).1
  held := maps.held _
  global absent := by rw [(maps.sees.use use).2 absent]

theorem this (maps : Maps r n moved names names') : Found n names names' thisName thisName :=
  ⟨maps.sees.this, maps.held _, fun _ => rfl⟩

/-- A name that is just declared under the name it had. -/
theorem declared (maps : Maps r n (sight.shadow r x).moved names names') (unused : x ≠ r.new) :
    Found n names names' x x := by
  refine ⟨maps.sees.others x unused fun moved => ?_, maps.held x, fun _ => rfl⟩
  simp only [Sight.moved_shadow, Bool.and_eq_true, bne_iff_ne] at moved
  exact moved.2

theorem value?_cases (found : Found n names names' x x') {m m' : Machine}
    (machines : m.Renamed r m') (size : m.cells.size = n) :
    (m.value? names x = none ∧ m'.value? names' x' = none ∧ x' = x) ∨
      ∃ v v', m.value? names x = some v ∧ m'.value? names' x' = some v' ∧ v.Renamed r n v' := by
  subst size
  unfold Machine.value?
  rw [found.same]
  cases here : names.get? x with
  | some location =>
    have cell := machines.cells location
    have inside : location < m.cells.size := found.held location here
    dsimp only
    rw [Array.getElem?_eq_getElem inside] at cell ⊢
    generalize m'.cells[location]? = right at cell
    cases cell with
    | some same => exact .inr ⟨_, _, rfl, rfl, same⟩
  | none =>
    rw [found.global here]
    rcases machines.globals.get?_cases x with ⟨left, right⟩ | ⟨v, v', left, right, same⟩
    · exact .inl ⟨left, right, rfl⟩
    · exact .inr ⟨v, v', left, right, same⟩

end Found

namespace Parallel

theorem put (found : Found n names names' x x') (same : v.Renamed r n v') :
    Parallel r n (fun _ _ _ => True) (Eval.put names x v) (Eval.put names' x' v') := by
  rintro m m' machines rfl
  unfold Eval.put
  rw [found.same]
  cases here : names.get? x with
  | some location =>
    have size : (m.cells.setIfInBounds location v).size = m.cells.size := Array.size_setIfInBounds
    refine ⟨Nat.le_of_eq size.symm, ?_, trivial⟩
    exact {
      globals := size ▸ machines.globals
      cells := size ▸ machines.cells.setIfInBounds location same
      objects := size ▸ machines.objects
      sink := machines.sink
      clock := machines.clock }
  | none =>
    rw [found.global here]
    exact ⟨Nat.le_refl _, { machines with globals := machines.globals.insert x same }, trivial⟩

theorem newCell (same : v.Renamed r n v') :
    Parallel r n (fun n' a b => b = a ∧ a < n') (Eval.newCell v) (Eval.newCell v') := by
  rintro m m' machines rfl
  have size : (m.cells.push v).size = m.cells.size + 1 := Array.size_push _
  have more : m.cells.size ≤ (m.cells.push v).size := by omega
  have inside : m.cells.size < (m.cells.push v).size := by omega
  refine ⟨more, ?_, machines.cells.size_eq.symm, inside⟩
  have cells := machines.cells.push same
  exact {
    globals := machines.globals.mono fun _ _ same => same.mono more
    cells := cells.mono fun _ _ same => same.mono more
    objects := machines.objects.mono fun _ _ same => same.mono more
    sink := machines.sink
    clock := machines.clock }

theorem declare (scopes : scope.Renamed r n sight scope')
    (declares : r.Declares sight name name' behind) (same : v.Renamed r n v') :
    Parallel r n (fun n' => Scope.Renamed r n' behind) (Eval.declare scope name.text v)
      (Eval.declare scope' name'.text v') := by
  cases scopes with
  | top =>
    cases declares with
    | kept _ =>
      have found : Found n {} {} name.text name.text := ⟨rfl, nofun, fun _ => rfl⟩
      exact (put found same).bind fun _ _ _ _ _ => .pure .top
  | @inner moved names names' maps =>
    apply (newCell same).bind
    rintro n' _ location more ⟨rfl, inside⟩
    have seen := maps.sees.declare declares location
    simp only [← Table.get?_insert] at seen
    have maps' : Maps r n' behind.moved (names.insert name.text location)
        (names'.insert name'.text location) := by
      refine ⟨seen, fun z at' found => ?_⟩
      rw [Table.get?_insert] at found
      split at found
      · cases found
        exact inside
      · exact Nat.lt_of_lt_of_le (maps.held z at' found) more
    cases declares <;> exact .pure (.inner maps')

theorem declareEach {params params' : List Lexeme} {arguments others : List (Value Names)}
    (scopes : scope.Renamed r n sight scope')
    (declares : r.DeclaresEach sight params params' behind)
    (same : List.Forall₂ (Value.Renamed r n) arguments others)
    (enough : arguments.length = params.length) :
    Parallel r n (fun n' => Scope.Renamed r n' behind)
      (Eval.declareEach scope ((params.map (·.text)).zip arguments))
      (Eval.declareEach scope' ((params'.map (·.text)).zip others)) := by
  induction declares generalizing n scope scope' arguments others with
  | nil => exact .pure scopes
  | cons first _ ih =>
    cases same with
    | nil => contradiction
    | cons head tail =>
      apply (declare scopes first head).bind
      intro n' inner inner' more scopes
      exact ih scopes (tail.imp fun _ _ same => same.mono more) (Nat.succ.inj enough)

theorem readName (maps : Maps r n moved names names') (use : r.Uses moved name name') :
    Parallel r n (Value.Renamed r) (Eval.readName names name) (Eval.readName names' name') := by
  apply Parallel.get
  intro m m' machines size
  have found := Found.of_use maps use
  rcases found.value?_cases machines size with ⟨left, right, same⟩ | ⟨v, v', left, right, same⟩
  · rw [left, right]
    simp only [Eval.fail, same, use.line_eq]
    exact .throw
  · rw [left, right]
    exact .pure same

theorem writeName (maps : Maps r n moved names names') (use : r.Uses moved name name')
    (same : v.Renamed r n v') :
    Parallel r n (fun _ _ _ => True) (Eval.writeName names name v)
      (Eval.writeName names' name' v') := by
  apply (readName maps use).bind
  intro n' _ _ more _
  exact put (.of_use (maps.mono more) use) (same.mono more)

theorem newObject {c c' : Class Names} (same : c.Renamed r n c') :
    Parallel r n (fun _ a b => b = a) (Eval.newObject c) (Eval.newObject c') := by
  rintro m m' machines rfl
  have size := machines.objects.size_eq
  have objects := machines.objects.push (x := { origin := c }) (y := { origin := c' })
    ⟨same, .empty⟩
  exact ⟨Nat.le_refl _, { machines with objects := objects }, size.symm⟩

theorem setField (object : ObjectId) (x : String) (same : v.Renamed r n v') :
    Parallel r n (fun _ _ _ => True) (Eval.setField object x v) (Eval.setField object x v') := by
  rintro m m' machines rfl
  have objects := machines.objects.modify object
    (f := fun o => { o with fields := o.fields.insert x v })
    (g := fun o => { o with fields := o.fields.insert x v' })
    fun _ _ here => ⟨here.origin, here.fields.insert x same⟩
  exact ⟨Nat.le_refl _, { machines with objects := objects }, trivial⟩

theorem bindMethod {f f' : Closure Names} (same : f.Renamed r n f') (object : ObjectId) :
    Parallel r n (fun n' b b' => b.Renamed r n' b' ∧ b.declaration = f.declaration)
      (Eval.bindMethod f object) (Eval.bindMethod f' object) := by
  obtain ⟨isInit, moved, maps, renamed⟩ := same
  have scopes : Scope.Renamed r n (.inside moved) (.inner f.scope) (.inner f'.scope) := .inner maps
  apply (declare scopes (r.declares_this moved) (.object object)).bind
  intro n' scope scope' _ scopes
  exact .pure ⟨⟨isInit, moved, scopes.maps, renamed⟩, rfl⟩

theorem readProperty (object : ObjectId) (property : Lexeme) :
    Parallel r n (Value.Renamed r) (Eval.readProperty object property)
      (Eval.readProperty object property) := by
  apply Parallel.get
  rintro m m' machines rfl
  have here := machines.objects object
  generalize m.objects[object]? = left at here
  generalize m'.objects[object]? = right at here
  cases here with
  | none => exact .fail _ property
  | some same =>
    simp only [Option.bind_some]
    rcases same.fields.get?_cases property.text with ⟨left, right⟩ | ⟨v, v', left, right, field⟩
    · rw [left, right]
      rcases same.origin.method?_cases property.text with
        ⟨left, right⟩ | ⟨f, f', left, right, method⟩
      · rw [left, right]
        exact .fail _ property
      · rw [left, right]
        exact (bindMethod method object).bind fun _ _ _ _ bound =>
          .pure (.callable (.function bound.1))
    · rw [left, right]
      exact .pure field

theorem readClock : Parallel r n (fun _ a b => b = a) Eval.readClock Eval.readClock := by
  rintro m m' machines rfl
  simp only [Eval.readClock, machines.clock]
  exact ⟨Nat.le_refl _, { machines with clock := rfl }, rfl⟩

theorem print (same : v.Renamed r n v') :
    Parallel r n (fun _ _ _ => True) (Eval.print v) (Eval.print v') := by
  rintro m m' machines rfl
  simp only [Eval.print, same.text_eq machines.objects, machines.sink]
  split
  · exact ⟨Nat.le_refl _, { machines with sink := rfl }, trivial⟩
  · exact ⟨rfl, { machines with sink := rfl }⟩

theorem flush : Parallel r n (fun _ _ _ => True) Eval.flush Eval.flush := by
  rintro m m' machines rfl
  simp only [Eval.flush, machines.sink]
  split
  · exact ⟨Nat.le_refl _, machines, trivial⟩
  · exact ⟨rfl, machines⟩

end Parallel
end Lexical
end ScopeScript
