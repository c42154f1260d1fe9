import ScopeScript.Machine.Evaluate

/-! The shape of the heap. Frames and objects are only ever added, a frame is enclosed by an older
one, and nothing refers to a frame or an object that is not there. Every step keeps it so, however
it ends and whatever distances are noted. -/
namespace ScopeScript

/-- The frame that a function was declared in is there. -/
def Closure.Live (m : Machine) (f : Closure) : Prop := f.scope < m.store.frames.size

/-- The frames of all methods are there, of inherited ones too. -/
def Class.Live (m : Machine) (c : Class) : Prop := ∀ name f, c.method? name = some f → f.Live m

def Callable.Live (m : Machine) : Callable → Prop
  | .native _ => True
  | .function f => f.Live m
  | .ofClass c => c.Live m

/-- All that a value refers to is there. -/
def Value.Live (m : Machine) : Value → Prop
  | .number _ | .string _ | .boolean _ | .nil => True
  | .callable f => f.Live m
  | .object id => id < m.objects.size

def Table.Live (m : Machine) (t : Table Value) : Prop := ∀ name v, t.get? name = some v → v.Live m

structure Object.Live (m : Machine) (o : Object) : Prop where
  origin : o.origin.Live m
  fields : o.fields.Live m

/-- Every link points to an older frame, and frames and objects hold live values only. -/
structure Machine.Sound (m : Machine) : Prop where
  older : ∀ f g, (m.store.frame f).enclosing = some g → g < f
  frames : ∀ f, (m.store.frame f).bindings.Live m
  objects : ∀ (i : ObjectId) (o : Object), m.objects[i]? = some o → o.Live m

/-- The same object later: its class is what it was, and no field is gone. -/
structure Object.Extends (after before : Object) : Prop where
  origin : after.origin = before.origin
  fields : before.fields.names ⊆ after.fields.names

/-- A later state. Frames keep their links and names, objects are what they were but for new
fields and values, and the distances are those that were noted. -/
structure Machine.Grows (before after : Machine) : Prop where
  frames : before.store.frames.size ≤ after.store.frames.size
  enclosing : ∀ f < before.store.frames.size,
    (after.store.frame f).enclosing = (before.store.frame f).enclosing
  names : ∀ f < before.store.frames.size,
    (before.store.frame f).bindings.names ⊆ (after.store.frame f).bindings.names
  objects : ∀ (i : ObjectId) (o : Object), before.objects[i]? = some o →
    ∃ o', after.objects[i]? = some o' ∧ o'.Extends o
  distances : after.distances = before.distances

variable {m m' : Machine}

namespace Machine

/-- No frame occurs twice on a chain: every frame on it is older than those before it. -/
theorem Sound.chain_descends (sound : m.Sound) (f : FrameId) :
    (m.store.chain f).Pairwise (· > ·) := by
  -- everything on a chain is at most as young as its first frame, by induction on its length
  have below (bound : Nat) : ∀ f, (m.store.chainUpTo bound f).Pairwise (· > ·) ∧
      ∀ g ∈ m.store.chainUpTo bound f, g ≤ f := by
    induction bound with
    | zero => exact fun _ => ⟨.nil, nofun⟩
    | succ bound ih =>
      intro f
      rw [Store.chainUpTo]
      cases link : (m.store.frame f).enclosing with
      | none =>
        constructor
        · exact List.pairwise_singleton _ f
        · exact fun g member => Nat.le_of_eq (List.mem_singleton.mp member)
      | some outer =>
        have older := sound.older f outer link
        obtain ⟨descends, beneath⟩ := ih outer
        rw [Option.elim_some, List.pairwise_cons, List.forall_mem_cons]
        refine ⟨⟨fun g member => ?_, descends⟩, Nat.le_refl f, fun g member => ?_⟩
        · exact Nat.lt_of_le_of_lt (beneath g member) older
        · exact Nat.le_of_lt (Nat.lt_of_le_of_lt (beneath g member) older)
  exact (below _ f).1

theorem Grows.refl (m : Machine) : m.Grows m where
  frames := Nat.le_refl _
  enclosing _ _ := rfl
  names _ _ _ member := member
  objects _ o there := ⟨o, there, rfl, fun _ member => member⟩
  distances := rfl

theorem Grows.trans {m'' : Machine} (first : m.Grows m') (second : m'.Grows m'') :
    m.Grows m'' where
  frames := Nat.le_trans first.frames second.frames
  enclosing f inside := by
    rw [second.enclosing f (Nat.lt_of_lt_of_le inside first.frames), first.enclosing f inside]
  names f inside _ member :=
    second.names f (Nat.lt_of_lt_of_le inside first.frames) (first.names f inside member)
  objects i o there := by
    obtain ⟨o', there', kept⟩ := first.objects i o there
    obtain ⟨o'', there'', kept'⟩ := second.objects i o' there'
    refine ⟨o'', there'', kept'.origin.trans kept.origin, fun _ member => ?_⟩
    exact kept'.fields (kept.fields member)
  distances := second.distances.trans first.distances

end Machine

section
variable (grown : m.Grows m')
include grown

theorem Closure.Live.mono {f : Closure} (live : f.Live m) : f.Live m' :=
  Nat.lt_of_lt_of_le live grown.frames

theorem Class.Live.mono {c : Class} (live : c.Live m) : c.Live m' :=
  fun name f found => (live name f found).mono grown

theorem Callable.Live.mono {f : Callable} (live : f.Live m) : f.Live m' := by
  cases f with
  | native _ => trivial
  | function f => exact Closure.Live.mono grown live
  | ofClass c => exact Class.Live.mono grown live

/-- Functions, classes and objects outlive every step. -/
theorem Value.Live.mono {v : Value} (live : v.Live m) : v.Live m' := by
  cases v with
  | number _ | string _ | boolean _ | nil => trivial
  | callable f => exact Callable.Live.mono grown live
  | object id =>
    obtain ⟨_, there, _⟩ := grown.objects id _ (Array.getElem?_eq_getElem live)
    exact (Array.getElem?_eq_some_iff.mp there).1

theorem Table.Live.mono {t : Table Value} (live : t.Live m) : t.Live m' :=
  fun name v found => (live name v found).mono grown

theorem Object.Live.mono {o : Object} (live : o.Live m) : o.Live m' :=
  ⟨live.origin.mono grown, live.fields.mono grown⟩

end

namespace Table

theorem names_subset_insert {α : Type} (t : Table α) (name : String) (value : α) :
    t.names ⊆ (t.insert name value).names := by
  rw [t.names_insert]
  split
  · exact fun _ member => member
  · exact List.subset_append_left _ _

/-- What is found under a name is one of its entries. -/
theorem mem_of_get?_ofList {α : Type} {entries : List (String × α)} {name : String} {a : α}
    (found : (Table.ofList entries).get? name = some a) : (name, a) ∈ entries := by
  suffices ∀ t : Table α, (entries.foldl (fun t e => t.insert e.1 e.2) t).get? name = some a →
      (name, a) ∈ entries ∨ t.get? name = some a from (this {} found).resolve_right nofun
  clear found
  induction entries with
  | nil => exact fun _ => .inr
  | cons entry rest ih =>
    intro t found
    rcases ih (t.insert entry.1 entry.2) found with later | found
    · exact .inl (.tail _ later)
    · rw [t.get?_insert] at found
      split at found
      · next same =>
        cases found
        subst same
        exact .inl List.mem_cons_self
      · exact .inr found

/-- What holds of all entries holds of whatever is found. -/
theorem forall_ofList {α : Type} {good : α → Prop} {entries : List (String × α)}
    (each : ∀ entry ∈ entries, good entry.2) {name : String} {a : α}
    (found : (Table.ofList entries).get? name = some a) : good a :=
  each _ (mem_of_get?_ofList found)

theorem live_ofList {entries : List (String × Value)} (each : ∀ entry ∈ entries, entry.2.Live m) :
    (ofList entries).Live m :=
  fun _ _ found => forall_ofList each found

theorem Live.insert {t : Table Value} (live : t.Live m) (name : String) {v : Value}
    (new : v.Live m) : (t.insert name v).Live m := by
  intro other u found
  rw [t.get?_insert] at found
  split at found
  · cases found
    exact new
  · exact live other u found

end Table

/-! Steps. -/

/-- What is found behind a step from a sound machine. -/
def Kept (m : Machine) (good : Machine → α → Prop) : EStateM.Result Stop Machine α → Prop
  | .ok a m' => m'.Sound ∧ m.Grows m' ∧ good m' a
  | .error _ m' => m'.Sound ∧ m.Grows m'

/-- A step that keeps the heap in shape, and has a good result if it has one. -/
def Keeps (m : Machine) (p : Eval α) (good : Machine → α → Prop) : Prop :=
  m.Sound → Kept m good (p m)

namespace Keeps
variable {α β : Type} {good : Machine → α → Prop} {good' : Machine → β → Prop}

theorem pure {a : α} (here : good m a) : Keeps m (Pure.pure a) good :=
  fun sound => ⟨sound, .refl m, here⟩

theorem throw (stop : Stop) : Keeps m (MonadExcept.throw stop : Eval α) good :=
  fun sound => ⟨sound, .refl m⟩

theorem bind {p : Eval α} {q : α → Eval β} (first : Keeps m p good)
    (next : ∀ m' a, m.Grows m' → good m' a → Keeps m' (q a) good') : Keeps m (p >>= q) good' := by
  intro sound
  have here := first sound
  simp only [Bind.bind, EStateM.bind]
  cases ran : p m with
  | error stop m' =>
    rw [ran] at here
    exact here
  | ok a m' =>
    rw [ran] at here
    obtain ⟨sound', grown, found⟩ := here
    have there := next m' a grown found sound'
    dsimp only
    cases left : q a m' with
    | ok b m'' =>
      rw [left] at there
      exact ⟨there.1, grown.trans there.2.1, there.2.2⟩
    | error stop m'' =>
      rw [left] at there
      exact ⟨there.1, grown.trans there.2⟩

/-- A step that looks at the machine first. -/
theorem get {q : Machine → Eval β} (next : m.Sound → Keeps m (q m) good') :
    Keeps m (MonadState.get >>= q) good' :=
  fun sound => next sound sound

theorem fail (cause : RuntimeCause) (place : Lexeme) :
    Keeps m (Eval.fail cause place : Eval α) good :=
  .throw _

theorem orFault {found : Except StoreFault α} (here : ∀ a, found = .ok a → good m a) :
    Keeps m (Eval.orFault found) good := by
  cases found with
  | ok a => exact .pure (here a rfl)
  | error f => exact .throw _

theorem orFail {place : Lexeme} {result : Except RuntimeCause Value}
    (here : ∀ v, result = .ok v → v.Live m) :
    Keeps m (Eval.orFail place result) fun m' v => v.Live m' := by
  cases result with
  | ok v => exact .pure (here v rfl)
  | error cause => exact .fail cause place

end Keeps

/-! Frames and names. -/

/-- A declaration in a frame changes that frame at most. -/
theorem Store.frame_define_cases {α : Type} (s : Store α) (f : FrameId) (name : String) (value : α)
    (g : FrameId) :
    (s.define f name value).frame g = s.frame g ∨
      (s.define f name value).frame g =
        { s.frame g with bindings := (s.frame g).bindings.insert name value } := by
  by_cases inside : f < s.frames.size
  · rw [s.frame_define inside]
    split
    · next same =>
      rw [same]
      exact .inr rfl
    · exact .inl rfl
  · left
    simp only [Store.frame, define, Array.getD_eq_getD_getElem?, Array.getElem?_modify]
    split
    · next same =>
      rw [← same, Array.getElem?_eq_none (Nat.le_of_not_lt inside)]
      rfl
    · rfl

theorem Store.getAt_eq_ok {α : Type} {s : Store α} {f : FrameId} {distance : Nat} {name : String}
    {a : α} (found : s.getAt f distance name = .ok a) :
    ∃ g, (s.frame g).bindings.get? name = some a := by
  unfold getAt at found
  split at found
  · contradiction
  · next g _ =>
    split at found
    · next value bound =>
      cases found
      exact ⟨g, bound⟩
    · contradiction

namespace Keeps

theorem newFrame {frame : Frame Value}
    (older : ∀ g, frame.enclosing = some g → g < m.store.frames.size)
    (live : frame.bindings.Live m) :
    Keeps m (Eval.newFrame frame) fun m' f => f < m'.store.frames.size := by
  intro sound
  have grown : m.Grows { m with store := m.store.add frame } := by
    have other (f : FrameId) (inside : f < m.store.frames.size) :
        (m.store.add frame).frame f = m.store.frame f := by
      have old : f ≠ m.store.nextFrame := Nat.ne_of_lt inside
      rw [Store.frame_add, if_neg old]
    exact { Machine.Grows.refl m with
      frames := by simp
      enclosing := fun f inside => by rw [other f inside]
      names := fun f inside => by
        rw [other f inside]
        exact fun _ member => member }
  refine ⟨⟨?_, ?_, ?_⟩, grown, by simp [Store.nextFrame]⟩
  · intro f g link
    rw [Store.frame_add] at link
    split at link
    · next new =>
      rw [new]
      exact older g link
    · exact sound.older f g link
  · intro f
    rw [Store.frame_add]
    split
    · exact live.mono grown
    · exact (sound.frames f).mono grown
  · exact fun i o there => (sound.objects i o there).mono grown

theorem define (f : FrameId) (name : String) {v : Value} (live : v.Live m) :
    Keeps m (Eval.define f name v) fun _ _ => True := by
  intro sound
  have cases := m.store.frame_define_cases f name v
  have grown : m.Grows { m with store := m.store.define f name v } := {
    Machine.Grows.refl m with
    frames := by simp
    enclosing := fun g _ => by rcases cases g with kept | written <;> simp [*]
    names := fun g _ => by
      rcases cases g with kept | written
      · rw [kept]
        exact fun _ member => member
      · rw [written]
        exact Table.names_subset_insert _ name v }
  refine ⟨⟨?_, ?_, ?_⟩, grown, trivial⟩
  · intro g h link
    rcases cases g with kept | written
    · rw [kept] at link
      exact sound.older g h link
    · rw [written] at link
      exact sound.older g h link
  · intro g
    rcases cases g with kept | written
    · rw [kept]
      exact (sound.frames g).mono grown
    · rw [written]
      exact ((sound.frames g).mono grown).insert name (live.mono grown)
  · exact fun i o there => (sound.objects i o there).mono grown

/-- A name is bound to a live value, at whatever distance it is looked up. -/
theorem readName (f : FrameId) (id : ExprId) (name : Lexeme) :
    Keeps m (Eval.readName f id name) fun m' v => v.Live m' := by
  refine .get fun sound => ?_
  split
  · refine .orFault fun v found => ?_
    obtain ⟨g, bound⟩ := Store.getAt_eq_ok found
    exact sound.frames g name.text v bound
  · split
    · next v found =>
      obtain ⟨g, _, bound⟩ := Option.bind_eq_some_iff.mp found
      exact .pure (sound.frames g name.text v bound)
    · exact .fail _ name

theorem writeName (f : FrameId) (id : ExprId) (name : Lexeme) {v : Value} (live : v.Live m) :
    Keeps m (Eval.writeName f id name v) fun _ _ => True := by
  have owner : Keeps m (Eval.ownerOf f id name) fun _ _ => True := by
    refine .get fun _ => ?_
    split
    · exact .orFault fun _ _ => trivial
    · split
      · exact .pure trivial
      · exact .fail _ name
  exact owner.bind fun m' g grown _ => .define g name.text (live.mono grown)

end Keeps

/-! Objects. -/

namespace Keeps

theorem newObject {c : Class} (live : c.Live m) :
    Keeps m (Eval.newObject c) fun m' id => id < m'.objects.size := by
  intro sound
  have grown : m.Grows { m with objects := m.objects.push { origin := c } } := {
    Machine.Grows.refl m with
    objects := fun i o there => by
      have inside : i < m.objects.size := (Array.getElem?_eq_some_iff.mp there).1
      refine ⟨o, ?_, rfl, fun _ member => member⟩
      rw [Array.getElem?_push, if_neg (Nat.ne_of_lt inside)]
      exact there }
  refine ⟨⟨sound.older, fun f => (sound.frames f).mono grown, fun i o there => ?_⟩, grown, ?_⟩
  · dsimp only at there
    rw [Array.getElem?_push] at there
    split at there
    · cases there
      exact ⟨live.mono grown, nofun⟩
    · exact (sound.objects i o there).mono grown
  · simp

theorem setField (object : ObjectId) (name : String) {v : Value} (live : v.Live m) :
    Keeps m (Eval.setField object name v) fun _ _ => True := by
  intro sound
  let put (o : Object) : Object := { o with fields := o.fields.insert name v }
  have found (i : ObjectId) : (m.objects.modify object put)[i]? =
      if object = i then m.objects[i]?.map put else m.objects[i]? := Array.getElem?_modify
  have grown : m.Grows { m with objects := m.objects.modify object put } := {
    Machine.Grows.refl m with
    objects := fun i o there => by
      dsimp only
      rw [found, there]
      split
      · exact ⟨put o, rfl, rfl, Table.names_subset_insert _ name v⟩
      · exact ⟨o, rfl, rfl, fun _ member => member⟩ }
  refine ⟨⟨sound.older, fun f => (sound.frames f).mono grown, fun i o there => ?_⟩, grown, trivial⟩
  dsimp only at there
  rw [found] at there
  split at there
  · obtain ⟨old, here, rfl⟩ := Option.map_eq_some_iff.mp there
    have before := (sound.objects i old here).mono grown
    exact ⟨before.origin, before.fields.insert name (live.mono grown)⟩
  · exact (sound.objects i o there).mono grown

theorem bindMethod {method : Closure} {object : ObjectId} (live : method.Live m)
    (there : object < m.objects.size) :
    Keeps m (Eval.bindMethod method object) fun m' f => f.Live m' := by
  refine Keeps.bind (.newFrame ?_ ?_) fun m' f _ inside => .pure inside
  · rintro _ ⟨⟩
    exact live
  · refine Table.live_ofList fun entry member => ?_
    rw [List.mem_singleton.mp member]
    exact there

theorem readProperty {object : ObjectId} (there : object < m.objects.size) (name : Lexeme) :
    Keeps m (Eval.readProperty object name) fun m' v => v.Live m' := by
  refine .get fun sound => ?_
  split
  · next v found =>
    obtain ⟨o, here, found⟩ := Option.bind_eq_some_iff.mp found
    exact .pure ((sound.objects object o here).fields name.text v found)
  · split
    · next method found =>
      obtain ⟨o, here, found⟩ := Option.bind_eq_some_iff.mp found
      have live := (sound.objects object o here).origin name.text method found
      exact (Keeps.bindMethod live there).bind fun m' f _ bound => .pure bound
    · exact .fail _ name

end Keeps
end ScopeScript
