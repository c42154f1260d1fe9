import ScopeScript.Proofs.Frames.Growth
import ScopeScript.Proofs.Receiver.State

/-! The steps of evaluation, watched. `this` is found where the method around it is bound, a new frame
gets the role it is made for, and nothing is written to a frame that binds a method. -/
namespace ScopeScript

/-- What refers to no frame is fine in any state. -/
theorem Value.fine_of_live {t : Watch} {n : Notes} {v : Value} (live : ∀ m, v.Live m) :
    v.Fine t n := by
  have nowhere := live { t.machine with store := {} }
  cases v with
  | number _ | string _ | boolean _ | nil | object _ => trivial
  | callable f =>
    cases f with
    | native _ => trivial
    | function f => exact absurd nowhere (Nat.not_lt_zero _)
    | ofClass c => exact fun name f found => absurd (nowhere name f found) (Nat.not_lt_zero _)

namespace Watch
variable {α β : Type} {t t' : Watch} {n : Notes} {kinds : List ScopeKind} {f g : FrameId}
  {good : Watch → α → Prop} {good' : Watch → β → Prop}

/-- What is found behind a step from a sound state. -/
def Kept (n : Notes) (t : Watch) (good : Watch → α → Prop) : EStateM.Result Stop Watch α → Prop
  | .ok a t' => t'.Sound n ∧ t.Grows t' ∧ good t' a
  | .error _ t' => t'.Sound n ∧ t.Grows t'

/-- A step that keeps a state sound, and has a good result if it has one. -/
def Keeps (n : Notes) (t : Watch) (p : Step α) (good : Watch → α → Prop) : Prop :=
  t.Sound n → Kept n t good (p t)

/-- Code inside scopes of these kinds runs in a frame. -/
structure Runs (t : Watch) (kinds : List ScopeKind) (f : FrameId) : Prop where
  fits : t.Fits kinds f
  inside : f < t.roles.size
  plain : ∀ object, t.role f ≠ .bound object

theorem Runs.mono (here : t.Runs kinds f) (grown : t.Grows t') : t'.Runs kinds f where
  fits := here.fits.mono grown
  inside := Nat.lt_of_lt_of_le here.inside grown.frames
  plain object := by
    rw [grown.role f here.inside]
    exact here.plain object

theorem role_of_getElem? {role : Role} (there : t.roles[f]? = some role) : t.role f = role := by
  rw [Watch.role, Array.getD_eq_getD_getElem?, there]
  rfl

namespace Sound

theorem global_lt (sound : t.Sound n) : globalFrame < t.roles.size :=
  (Array.getElem?_eq_some_iff.mp sound.global).1

theorem runs_global (sound : t.Sound n) : t.Runs [] globalFrame :=
  ⟨rfl, sound.global_lt, fun _ => by rw [role_of_getElem? sound.global]; nofun⟩

/-- The frames around code are there. -/
theorem inside (sound : t.Sound n) (fits : t.Fits kinds f) : f < t.roles.size := by
  cases kinds with
  | nil => exact fits ▸ sound.global_lt
  | cons kind outer => exact fits.1

/-- What was printed and what the clock has shown does not matter, and a good event may be told. -/
theorem alike (sound : t.Sound n) (t' : Watch) (roles : t'.roles = t.roles)
    (store : t'.machine.store = t.machine.store) (objects : t'.machine.objects = t.machine.objects)
    (distances : t'.machine.distances = t.machine.distances)
    (log : ∀ event ∈ t'.log, event.Good t.machine) : t'.Sound n ∧ t.Grows t' := by
  have grown : t.Grows t' := {
    frames := Nat.le_of_eq (by rw [roles])
    role := fun f _ => by rw [role, roles, role]
    enclosing := fun f _ => by rw [store]
    objects := by rw [objects]; exact (Grows.refl t).objects }
  have known := distances.trans sound.distances
  refine ⟨sound.keep grown (.refl n) roles store known ?_ ?_, grown⟩
  · rw [objects]
    exact fun _ _ => sound.objects_mono grown (.refl n)
  · exact fun event member => (log event member).mono grown

theorem log_append (sound : t.Sound n) {event : Event} (good : event.Good t.machine) :
    ∀ other ∈ t.log ++ [event], other.Good t.machine := by
  intro other member
  rcases List.mem_append.mp member with old | new
  · exact sound.log other old
  · rw [List.mem_singleton.mp new]
    exact good

end Sound

namespace Keeps
variable {p : Step α} {q : α → Step β}

theorem pure {a : α} (here : good t a) : Keeps n t (Pure.pure a) good :=
  fun sound => ⟨sound, .refl t, here⟩

theorem throw (stop : Stop) : Keeps n t (MonadExcept.throw stop : Step α) good :=
  fun sound => ⟨sound, .refl t⟩

theorem fail (cause : RuntimeCause) (place : Lexeme) : Keeps n t (fail cause place : Step α) good :=
  fun sound => ⟨sound, .refl t⟩

theorem bind (first : Keeps n t p good)
    (next : ∀ t' a, t.Grows t' → good t' a → Keeps n t' (q a) good') :
    Keeps n t (p >>= q) good' := by
  intro sound
  have here := first sound
  simp only [Bind.bind, EStateM.bind]
  cases ran : p t with
  | error stop t' =>
    rw [ran] at here
    exact here
  | ok a t' =>
    rw [ran] at here
    obtain ⟨sound', grown, found⟩ := here
    have there := next t' a grown found sound'
    dsimp only
    cases left : q a t' with
    | ok b t'' =>
      rw [left] at there
      exact ⟨there.1, grown.trans there.2.1, there.2.2⟩
    | error stop t'' =>
      rw [left] at there
      exact ⟨there.1, grown.trans there.2⟩

theorem imp {good' : Watch → α → Prop} (keeps : Keeps n t p good)
    (more : ∀ t' a, t.Grows t' → good t' a → good' t' a) : Keeps n t p good' := by
  intro sound
  have kept := keeps sound
  cases ran : p t with
  | ok a t' =>
    rw [ran] at kept
    exact ⟨kept.1, kept.2.1, more t' a kept.2.1 kept.2.2⟩
  | error stop t' =>
    rw [ran] at kept
    exact kept

/-- A step that looks at the state first. -/
theorem get {q : Watch → Step β} (next : t.Sound n → Keeps n t (q t) good') :
    Keeps n t (MonadState.get >>= q) good' :=
  fun sound => next sound sound

theorem record {event : Event} (here : event.Good t.machine) :
    Keeps n t (record event) fun _ _ => True := by
  intro sound
  obtain ⟨kept, grown⟩ := sound.alike (.mk t.machine t.roles (t.log ++ [event])) rfl rfl rfl rfl
    (sound.log_append here)
  exact ⟨kept, grown, trivial⟩

/-- A step that changes nothing. -/
theorem still {p : Eval α} (look : t.Sound n →
      (∃ a, p t.machine = .ok a t.machine ∧ good t a) ∨
        ∃ stop, p t.machine = .error stop t.machine) :
    Keeps n t (lift p) good := by
  intro sound
  unfold lift
  rcases look sound with ⟨a, ran, here⟩ | ⟨stop, ran⟩
  · rw [ran]
    exact ⟨sound, .refl t, here⟩
  · rw [ran]
    exact ⟨sound, .refl t⟩

/-- A result that is told is good if the event is. -/
theorem told {p : Eval α} {event : Option α → Event} (look : t.Sound n →
      ∃ a, p t.machine = .ok a t.machine ∧ (event (some a)).Good t.machine) :
    Keeps n t (told p event) fun _ a => (event (some a)).Good t.machine := by
  intro sound
  obtain ⟨a, ran, here⟩ := look sound
  obtain ⟨kept, grown⟩ := sound.alike (.mk t.machine t.roles (t.log ++ [event (some a)])) rfl rfl
    rfl rfl (sound.log_append here)
  unfold Watch.told
  rw [ran]
  exact ⟨kept, grown, here⟩

theorem orFail {place : Lexeme} {result : Except RuntimeCause Value}
    (here : ∀ v, result = .ok v → ∀ m, v.Live m) :
    Keeps n t (lift (Eval.orFail place result)) fun t' v => v.Fine t' n := by
  refine .still fun _ => ?_
  cases result with
  | ok v => exact .inl ⟨v, rfl, Value.fine_of_live (here v rfl)⟩
  | error cause => exact .inr ⟨_, rfl⟩

/-- A step that only prints, or reads the clock. -/
theorem outside {p : Eval α}
    (store : ∀ m, (machineBehind (p m)).store = m.store)
    (objects : ∀ m, (machineBehind (p m)).objects = m.objects)
    (distances : ∀ m, (machineBehind (p m)).distances = m.distances) :
    Keeps n t (lift p) fun _ _ => True := by
  intro sound
  have kept := sound.alike (.mk (machineBehind (p t.machine)) t.roles t.log) rfl
    (store t.machine) (objects t.machine) (distances t.machine) sound.log
  unfold lift
  cases ran : p t.machine with
  | ok a m =>
    rw [ran] at kept
    exact ⟨kept.1, kept.2, trivial⟩
  | error stop m =>
    rw [ran] at kept
    exact kept

theorem readClock : Keeps n t (lift Eval.readClock) fun _ _ => True :=
  .outside (fun _ => rfl) (fun _ => rfl) (fun _ => rfl)

theorem print (v : Value) : Keeps n t (lift (Eval.print v)) fun _ _ => True := by
  refine .outside ?_ ?_ ?_ <;>
  · intro m
    unfold Eval.print
    dsimp only
    split <;> rfl

theorem flush : Keeps n t (lift Eval.flush) fun _ _ => True := by
  refine .outside ?_ ?_ ?_ <;>
  · intro m
    unfold Eval.flush
    split <;> rfl

/-! Names. -/

theorem readName (f : FrameId) (id : ExprId) (name : Lexeme) :
    Keeps n t (lift (Eval.readName f id name)) fun t' v => v.Fine t' n := by
  refine .still fun sound => ?_
  refine (Eval.readName_cases f id name t.machine).imp_left ?_
  rintro ⟨v, g, ran, bound⟩
  exact ⟨v, ran, sound.frames g name.text v bound⟩

/-- `this` is the object that the nearest method around it is bound to. -/
theorem readThis (here : t.Runs kinds f) {id : ExprId} {keyword : Lexeme}
    (placed : (Expr.this id keyword).Placed n kinds) :
    Keeps n t (readThis f id keyword) fun t' v => v.Fine t' n := by
  obtain ⟨text, _, d, nearest, noted⟩ := placed
  refine .get fun _ => (Keeps.told fun sound => ?_).imp ?_
  · obtain ⟨object, receiver, found⟩ := sound.receiver here.fits nearest
    refine ⟨.object object, ?_, object, receiver, rfl⟩
    rw [← sound.distances] at noted
    rw [← text] at found
    rw [Eval.readName, Eval.get_bind, noted]
    dsimp only
    rw [found]
    rfl
  · rintro _ _ _ ⟨object, _, ⟨⟩⟩
    trivial

/-- A frame that binds no method may hold anything but `this`. -/
theorem define (plain : ∀ object, t.role f ≠ .bound object) {name : String}
    (other : name ≠ thisName) {v : Value} (fine : v.Fine t n) :
    Keeps n t (define f name v) fun _ _ => True := by
  intro sound
  have cases := t.machine.store.frame_define_cases f name v
  let t' : Watch := { t with
    machine := { t.machine with store := t.machine.store.define f name v }
    log := t.log ++ [.wrote (t.role f)] }
  have grown : t.Grows t' := { Grows.refl t with
    enclosing := fun g _ => by rcases cases g with kept | written <;> simp [t', *] }
  have made (g : FrameId) : (t'.machine.store.frame g).MadeFor t' (t.role g) := by
    have before := (sound.made g).mono grown
    cases here : t.role g with
    | bound object =>
      have elsewhere : f ≠ g := by
        rintro rfl
        exact plain object here
      rw [here] at before
      rw [t.machine.store.frame_define_of_ne elsewhere]
      exact before
    | code receiver =>
      rw [here] at before
      rcases cases g with kept | written
      · rw [kept]
        exact before
      · rw [written]
        refine ⟨?_, before.2⟩
        rw [Table.get?_insert, if_neg other]
        exact before.1
  refine ⟨⟨?_, sound.distances, sound.global, made, fun g => ?_,
    fun _ _ => sound.objects_mono grown (.refl n), ?_⟩, grown, trivial⟩
  · simpa using sound.size
  · rcases cases g with kept | written
    · rw [kept]
      exact (sound.frames g).mono grown (.refl n)
    · rw [written]
      exact ((sound.frames g).mono grown (.refl n)).insert name (fine.mono grown (.refl n))
  · exact sound.log_append (show (Event.wrote (t.role f)).Good t.machine from plain)

theorem writeName (f : FrameId) (id : ExprId) {name : Lexeme} (other : name.text ≠ thisName)
    {v : Value} (fine : v.Fine t n) : Keeps n t (writeName f id name v) fun _ _ => True := by
  have owner : Keeps n t (lift (Eval.ownerOf f id name)) fun t' g =>
      t'.machine.store.binds g name.text = true :=
    .still fun _ => Eval.ownerOf_cases f id name t.machine
  apply owner.bind
  intro t₁ g grown binds sound
  exact Keeps.define (sound.not_bound other binds) other (fine.mono grown (.refl n)) sound

/-! Frames and objects. -/

theorem newFrame {role : Role} {frame : Frame Value} (made : frame.MadeFor t role)
    (fine : frame.bindings.Fine t n) :
    Keeps n t (newFrame role frame) fun t' f => f < t'.roles.size ∧ t'.role f = role ∧
      (t'.machine.store.frame f).enclosing = frame.enclosing := by
  intro sound
  let t' : Watch := { t with
    machine := { t.machine with store := t.machine.store.add frame }
    roles := t.roles.push role }
  have next : t.roles.size = t.machine.store.nextFrame := sound.size
  have roles (f : FrameId) :
      t'.role f = if f = t.machine.store.nextFrame then role else t.role f := by
    simp only [t', Watch.role, Array.getD_eq_getD_getElem?, Array.getElem?_push, next]
    split <;> rfl
  have stored (f : FrameId) : t'.machine.store.frame f =
      if f = t.machine.store.nextFrame then frame else t.machine.store.frame f :=
    t.machine.store.frame_add frame f
  have old {f : FrameId} (inside : f < t.roles.size) : f ≠ t.machine.store.nextFrame :=
    Nat.ne_of_lt (next ▸ inside)
  have grown : t.Grows t' := { Grows.refl t with
    frames := by simp [t']
    role := fun f inside => by rw [roles, if_neg (old inside)]
    enclosing := fun f inside => by rw [stored, if_neg (old inside)] }
  refine ⟨⟨?_, sound.distances, ?_, fun f => ?_, fun f => ?_,
    fun _ _ => sound.objects_mono grown (.refl n), sound.log_mono grown⟩, grown, ?_, ?_, ?_⟩
  · simpa [t'] using sound.size
  · rw [Array.getElem?_push, if_neg (Nat.ne_of_lt sound.global_lt)]
    exact sound.global
  · rw [roles, stored]
    split
    · exact made.mono grown
    · exact (sound.made f).mono grown
  · rw [stored]
    split
    · exact fine.mono grown (.refl n)
    · exact (sound.frames f).mono grown (.refl n)
  · simp [← next]
  · rw [roles, if_pos rfl]
  · rw [stored, if_pos rfl]

/-- A frame for a block or the body of a function. -/
theorem codeFrame (kind : ScopeKind) (plain : kind ≠ .methods) {bindings : Table Value}
    (fits : t.Fits kinds g) (other : bindings.get? thisName = none) (fine : bindings.Fine t n) :
    Keeps n t (Watch.newFrame (.code (t.role g).receiver?) { bindings, enclosing := some g })
      fun t' f => t'.Runs (kind :: kinds) f := by
  intro sound
  have made : Frame.MadeFor t { bindings, enclosing := some g } (.code (t.role g).receiver?) := by
    refine ⟨other, ?_⟩
    rintro _ ⟨⟩
    exact ⟨sound.inside fits, rfl⟩
  refine (newFrame made fine).imp ?_ sound
  rintro t' f grown ⟨inside, role, link⟩
  have code (object : ObjectId) : t'.role f ≠ .bound object := by
    rw [role]
    nofun
  refine ⟨⟨inside, ?_, g, link, fits.mono grown⟩, inside, code⟩
  constructor
  · exact fun methods => absurd methods plain
  · exact fun ⟨object, bound⟩ => absurd bound (code object)

/-- A method that is bound to an object knows the frame that binds it. -/
theorem bindMethod {method : Closure} (fine : method.FineMethod t n) (object : ObjectId) :
    Keeps n t (bindMethod method object) fun t' f => f.Fine t' n := by
  obtain ⟨kinds, fits, placed⟩ := fine
  let frame : Frame Value :=
    { bindings := .ofList [(thisName, .object object)], enclosing := some method.scope }
  have this : frame.bindings.Fine t n := by
    refine Table.fine_ofList fun entry member => ?_
    rw [List.mem_singleton.mp member]
    trivial
  have made : frame.MadeFor t (.bound object) := rfl
  apply (Keeps.newFrame made this).bind
  rintro t₁ f grown ⟨inside, role, link⟩
  have bound : ∃ object, t₁.role f = .bound object := ⟨object, role⟩
  have around : t₁.Fits (.methods :: kinds) f :=
    ⟨inside, ⟨fun _ => bound, fun _ => rfl⟩, method.scope, link, fits.mono grown⟩
  exact .pure ⟨_, around, placed, fun _ => bound⟩

theorem readProperty (object : ObjectId) (name : Lexeme) :
    Keeps n t (readProperty object name) fun t' v => v.Fine t' n := by
  refine .get fun sound => ?_
  split
  · next v found =>
    obtain ⟨o, here, found⟩ := Option.bind_eq_some_iff.mp found
    exact .pure ((sound.objects object o here).fields name.text v found)
  · split
    · next method found =>
      obtain ⟨o, here, found⟩ := Option.bind_eq_some_iff.mp found
      have fine := (sound.objects object o here).origin name.text method found
      exact (Keeps.bindMethod fine object).bind fun _ _ _ bound => .pure bound
    · exact .fail _ name

theorem newObject {c : Class} (fine : c.Fine t n) :
    Keeps n t (lift (Eval.newObject c)) fun t' i => i = t.machine.objects.size ∧
      ∃ o, t'.machine.objects[i]? = some o ∧ o.origin = c := by
  intro sound
  let t' : Watch := { t with
    machine := { t.machine with objects := t.machine.objects.push { origin := c } } }
  have grown : t.Grows t' := { Grows.refl t with
    objects := fun i o there => by
      have inside : i < t.machine.objects.size := (Array.getElem?_eq_some_iff.mp there).1
      refine ⟨o, ?_, rfl⟩
      rw [Array.getElem?_push, if_neg (Nat.ne_of_lt inside)]
      exact there }
  have each (i : ObjectId) (o : Object) (there : t'.machine.objects[i]? = some o) :
      o.Fine t' n := by
    rw [Array.getElem?_push] at there
    split at there
    · cases there
      exact ⟨fine.mono grown (.refl n), nofun⟩
    · exact sound.objects_mono grown (.refl n) there
  have kept := sound.keep grown (.refl n) rfl rfl sound.distances each (sound.log_mono grown)
  exact ⟨kept, grown, rfl, { origin := c }, by simp, rfl⟩

theorem setField (object : ObjectId) (name : String) {v : Value} (fine : v.Fine t n) :
    Keeps n t (lift (Eval.setField object name v)) fun _ _ => True := by
  intro sound
  let put (o : Object) : Object := { o with fields := o.fields.insert name v }
  let t' : Watch := { t with
    machine := { t.machine with objects := t.machine.objects.modify object put } }
  have found (i : ObjectId) : t'.machine.objects[i]? =
      if object = i then t.machine.objects[i]?.map put else t.machine.objects[i]? :=
    Array.getElem?_modify
  have grown : t.Grows t' := { Grows.refl t with
    objects := fun i o there => by
      rw [found, there]
      split
      · exact ⟨put o, rfl, rfl⟩
      · exact ⟨o, rfl, rfl⟩ }
  have each (i : ObjectId) (o : Object) (there : t'.machine.objects[i]? = some o) :
      o.Fine t' n := by
    rw [found] at there
    split at there
    · obtain ⟨old, here, rfl⟩ := Option.map_eq_some_iff.mp there
      have before := sound.objects_mono grown (.refl n) here
      exact ⟨before.origin, before.fields.insert name (fine.mono grown (.refl n))⟩
    · exact sound.objects_mono grown (.refl n) there
  have kept := sound.keep grown (.refl n) rfl rfl sound.distances each (sound.log_mono grown)
  exact ⟨kept, grown, trivial⟩

end Keeps
end Watch
end ScopeScript
