import ScopeScript.Proofs.Frames.Names
import ScopeScript.Proofs.Receiver.Placed
import ScopeScript.Proofs.Receiver.Watch

/-! What is kept while evaluation is watched. A frame that binds a method holds `this` and nothing
else, and no other frame holds it. The frames around code are those of the scopes around it, so the
distance of `this` leads to the frame that the method around it is bound by. -/
namespace ScopeScript

/-- What the log may say: `this` and initializers do not fail and are the receiver, nothing is written
where a method is bound, and an object that was made is still there later and of the class that was
called. -/
def Event.Good (m : Machine) : Event → Prop
  | this receiver value | initialized receiver value =>
    ∃ object, receiver = some object ∧ value = some (.object object)
  | wrote role => ∀ object, role ≠ .bound object
  | constructed origin count value => value = .object count ∧
    ∃ o, m.objects[count]? = some o ∧ o.origin = origin

namespace Watch

/-- The frames from `f` outwards are those of scopes of these kinds. -/
def Fits (t : Watch) : List ScopeKind → FrameId → Prop
  | [], f => f = globalFrame
  | kind :: outer, f => f < t.roles.size ∧ (kind = .methods ↔ ∃ object, t.role f = .bound object) ∧
    ∃ g, (t.machine.store.frame f).enclosing = some g ∧ t.Fits outer g

/-- A later state. Roles and links of frames and the classes of objects are what they were. -/
structure Grows (before after : Watch) : Prop where
  frames : before.roles.size ≤ after.roles.size
  role : ∀ f < before.roles.size, after.role f = before.role f
  enclosing : ∀ f < before.roles.size,
    (after.machine.store.frame f).enclosing = (before.machine.store.frame f).enclosing
  objects : ∀ (i : ObjectId) (o : Object), before.machine.objects[i]? = some o →
    ∃ o', after.machine.objects[i]? = some o' ∧ o'.origin = o.origin

variable {t t' t'' : Watch} {n : Notes} {kinds : List ScopeKind} {f : FrameId}

theorem lt_of_bound {object : ObjectId} (bound : t.role f = .bound object) : f < t.roles.size := by
  by_contra outside
  rw [role, Array.getD_eq_getD_getElem?, Array.getElem?_eq_none (Nat.le_of_not_lt outside)] at bound
  contradiction

theorem Grows.bound (grown : t.Grows t') {object : ObjectId} (bound : t.role f = .bound object) :
    t'.role f = .bound object :=
  (grown.role f (lt_of_bound bound)).trans bound

theorem Grows.refl (t : Watch) : t.Grows t :=
  ⟨Nat.le_refl _, fun _ _ => rfl, fun _ _ => rfl, fun _ o there => ⟨o, there, rfl⟩⟩

theorem Grows.trans (first : t.Grows t') (second : t'.Grows t'') : t.Grows t'' where
  frames := Nat.le_trans first.frames second.frames
  role f inside :=
    (second.role f (Nat.lt_of_lt_of_le inside first.frames)).trans (first.role f inside)
  enclosing f inside :=
    (second.enclosing f (Nat.lt_of_lt_of_le inside first.frames)).trans (first.enclosing f inside)
  objects i o there := by
    obtain ⟨o', there', same⟩ := first.objects i o there
    obtain ⟨o'', there'', same'⟩ := second.objects i o' there'
    exact ⟨o'', there'', same'.trans same⟩

theorem Fits.mono (fits : t.Fits kinds f) (grown : t.Grows t') : t'.Fits kinds f := by
  induction kinds generalizing f with
  | nil => exact fits
  | cons kind outer ih =>
    obtain ⟨inside, bound, g, link, rest⟩ := fits
    refine ⟨Nat.lt_of_lt_of_le inside grown.frames, ?_, g, ?_, ih rest⟩
    · rw [grown.role f inside]
      exact bound
    · rw [grown.enclosing f inside]
      exact link

end Watch

open Watch

theorem Event.Good.mono {t t' : Watch} {event : Event} (good : event.Good t.machine)
    (grown : t.Grows t') : event.Good t'.machine := by
  cases event with
  | this _ _ | wrote _ | initialized _ _ => exact good
  | constructed origin count value =>
    obtain ⟨made, o, there, same⟩ := good
    obtain ⟨o', there', kept⟩ := grown.objects count o there
    exact ⟨made, o', there', kept.trans same⟩

/-! Values. Every function knows the frames around its code, and an initializer that can be called is
bound to an object. -/

/-- Functions and bound methods. -/
def Closure.Fine (t : Watch) (n : Notes) (f : Closure) : Prop :=
  ∃ kinds, t.Fits kinds f.scope ∧ f.declaration.Placed n kinds ∧
    (f.isInit = true → ∃ object, t.role f.scope = .bound object)

/-- Methods that are not bound yet. -/
def Closure.FineMethod (t : Watch) (n : Notes) (f : Closure) : Prop :=
  ∃ kinds, t.Fits kinds f.scope ∧ f.declaration.Placed n (.methods :: kinds)

def Class.Fine (t : Watch) (n : Notes) (c : Class) : Prop :=
  ∀ name f, c.method? name = some f → f.FineMethod t n

def Callable.Fine (t : Watch) (n : Notes) : Callable → Prop
  | .native _ => True
  | .function f => f.Fine t n
  | .ofClass c => c.Fine t n

def Value.Fine (t : Watch) (n : Notes) : Value → Prop
  | .number _ | .string _ | .boolean _ | .nil | .object _ => True
  | .callable f => f.Fine t n

def Table.Fine (t : Watch) (n : Notes) (table : Table Value) : Prop :=
  ∀ name v, table.get? name = some v → v.Fine t n

structure Object.Fine (t : Watch) (n : Notes) (o : Object) : Prop where
  origin : o.origin.Fine t n
  fields : o.fields.Fine t n

section
variable {t t' : Watch} {n n' : Notes} (grown : t.Grows t') (later : n'.Extends n)
include grown later

theorem Closure.Fine.mono {f : Closure} (fine : f.Fine t n) : f.Fine t' n' := by
  obtain ⟨kinds, fits, placed, bound⟩ := fine
  refine ⟨kinds, fits.mono grown, f.declaration.placed_mono later placed, fun isInit => ?_⟩
  exact (bound isInit).imp fun _ here => grown.bound here

theorem Closure.FineMethod.mono {f : Closure} (fine : f.FineMethod t n) : f.FineMethod t' n' := by
  obtain ⟨kinds, fits, placed⟩ := fine
  exact ⟨kinds, fits.mono grown, f.declaration.placed_mono later placed⟩

theorem Class.Fine.mono {c : Class} (fine : c.Fine t n) : c.Fine t' n' :=
  fun name f found => (fine name f found).mono grown later

theorem Value.Fine.mono {v : Value} (fine : v.Fine t n) : v.Fine t' n' := by
  cases v with
  | number _ | string _ | boolean _ | nil | object _ => trivial
  | callable f =>
    cases f with
    | native _ => trivial
    | function f => exact Closure.Fine.mono grown later fine
    | ofClass c => exact Class.Fine.mono grown later fine

theorem Table.Fine.mono {table : Table Value} (fine : table.Fine t n) : table.Fine t' n' :=
  fun name v found => (fine name v found).mono grown later

theorem Object.Fine.mono {o : Object} (fine : o.Fine t n) : o.Fine t' n' :=
  ⟨fine.origin.mono grown later, fine.fields.mono grown later⟩

end

theorem Table.fine_ofList {t : Watch} {n : Notes} {entries : List (String × Value)}
    (each : ∀ entry ∈ entries, entry.2.Fine t n) : (Table.ofList entries).Fine t n :=
  fun _ _ found => forall_ofList each found

theorem Table.Fine.insert {t : Watch} {n : Notes} {table : Table Value} (fine : table.Fine t n)
    (name : String) {v : Value} (new : v.Fine t n) : (table.insert name v).Fine t n := by
  intro other u found
  rw [table.get?_insert] at found
  split at found
  · cases found
    exact new
  · exact fine other u found

/-! States. -/

/-- A frame is what its role says. One that binds a method holds nothing but `this`. Others do not
hold it, and belong to the receiver of the frame around them. -/
def Frame.MadeFor (t : Watch) (frame : Frame Value) : Role → Prop
  | .bound object => frame.bindings = .ofList [(thisName, .object object)]
  | .code receiver => frame.bindings.get? thisName = none ∧
    ∀ g, frame.enclosing = some g → g < t.roles.size ∧ receiver = (t.role g).receiver?

theorem Frame.MadeFor.mono {t t' : Watch} {frame : Frame Value} {role : Role}
    (made : frame.MadeFor t role) (grown : t.Grows t') : frame.MadeFor t' role := by
  cases role with
  | bound object => exact made
  | code receiver =>
    refine ⟨made.1, fun g link => ?_⟩
    obtain ⟨inside, around⟩ := made.2 g link
    refine ⟨Nat.lt_of_lt_of_le inside grown.frames, ?_⟩
    rw [grown.role g inside]
    exact around

namespace Watch
variable {t t' : Watch} {n n' : Notes} {kinds : List ScopeKind} {f : FrameId}

/-- The state of a run that is watched, with the distances noted for it. -/
structure Sound (n : Notes) (t : Watch) : Prop where
  size : t.roles.size = t.machine.store.frames.size
  distances : t.machine.distances = n.distances
  global : t.roles[globalFrame]? = some (.code none)
  made : ∀ f, (t.machine.store.frame f).MadeFor t (t.role f)
  frames : ∀ f, (t.machine.store.frame f).bindings.Fine t n
  objects : ∀ (i : ObjectId) (o : Object), t.machine.objects[i]? = some o → o.Fine t n
  log : ∀ event ∈ t.log, event.Good t.machine

namespace Sound

/-- What happens apart from the frames leaves them what they were made for. -/
theorem keep (sound : t.Sound n) (grown : t.Grows t') (later : n'.Extends n)
    (roles : t'.roles = t.roles) (store : t'.machine.store = t.machine.store)
    (distances : t'.machine.distances = n'.distances)
    (objects : ∀ (i : ObjectId) (o : Object), t'.machine.objects[i]? = some o → o.Fine t' n')
    (log : ∀ event ∈ t'.log, event.Good t'.machine) : t'.Sound n' := by
  have role (f : FrameId) : t'.role f = t.role f := by rw [Watch.role, roles, Watch.role]
  refine ⟨?_, distances, ?_, fun f => ?_, fun f => ?_, objects, log⟩
  · rw [roles, store, sound.size]
  · rw [roles, sound.global]
  · rw [role, store]
    exact (sound.made f).mono grown
  · rw [store]
    exact (sound.frames f).mono grown later

theorem objects_mono (sound : t.Sound n) (grown : t.Grows t') (later : n'.Extends n)
    {i : ObjectId} {o : Object} (there : t.machine.objects[i]? = some o) : o.Fine t' n' :=
  (sound.objects i o there).mono grown later

theorem log_mono (sound : t.Sound n) (grown : t.Grows t') :
    ∀ event ∈ t.log, event.Good t'.machine :=
  fun event member => (sound.log event member).mono grown

theorem bound (sound : t.Sound n) {object : ObjectId} (bound : t.role f = .bound object) :
    (t.machine.store.frame f).bindings = .ofList [(thisName, .object object)] := by
  have made := sound.made f
  rw [bound] at made
  exact made

theorem getAt_bound (sound : t.Sound n) {object : ObjectId} (bound : t.role f = .bound object) :
    t.machine.store.getAt f 0 thisName = .ok (.object object) := by
  simp only [Store.getAt, Store.ancestor, sound.bound bound]
  rfl

/-- The distance of `this` leads to the frame that binds the receiver. -/
theorem receiver (sound : t.Sound n) (fits : t.Fits kinds f) {d : Nat}
    (nearest : kinds.findIdx? (· = .methods) = some d) : ∃ object,
      (t.role f).receiver? = some object ∧
      t.machine.store.getAt f d thisName = .ok (.object object) := by
  induction kinds generalizing f d with
  | nil => contradiction
  | cons kind outer ih =>
    obtain ⟨_, bound, g, link, rest⟩ := fits
    rw [List.findIdx?_cons] at nearest
    by_cases methods : kind = .methods
    · rw [if_pos (by simpa using methods)] at nearest
      cases nearest
      obtain ⟨object, here⟩ := bound.mp methods
      exact ⟨object, by rw [here]; rfl, sound.getAt_bound here⟩
    · rw [if_neg (by simpa using methods)] at nearest
      obtain ⟨d', inner, rfl⟩ := Option.map_eq_some_iff.mp nearest
      obtain ⟨object, receiver, found⟩ := ih rest inner
      refine ⟨object, ?_, ?_⟩
      · -- code inside another frame belongs to the receiver around it
        have made := sound.made f
        cases here : t.role f with
        | bound other => exact absurd (bound.mpr ⟨other, here⟩) methods
        | code own =>
          rw [here] at made
          exact (made.2 g link).2.trans receiver
      · rw [← found, Store.getAt, Store.getAt, Store.ancestor, link]

/-- Names other than `this` are not bound in the frame of a receiver. -/
theorem not_bound (sound : t.Sound n) {name : String} (other : name ≠ thisName)
    (binds : t.machine.store.binds f name = true) (object : ObjectId) :
    t.role f ≠ .bound object := by
  intro here
  rw [Store.binds, sound.bound here] at binds
  simp [Table.contains, Table.ofList, Table.insert, Table.insertIn, Table.get?, Table.findIn,
    Ne.symm other] at binds

end Sound

end Watch
end ScopeScript
