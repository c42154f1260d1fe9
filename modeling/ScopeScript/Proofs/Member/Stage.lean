import ScopeScript.Proofs.Member.Classes
import ScopeScript.Proofs.Member.Parameters
import ScopeScript.Proofs.Trace.Closed

/-! What is known at a stage of a session, given the moments that have passed: every function passed
the static checks, every class was made by a declaration among these moments, and every field has
the value that it was last set to. -/
namespace ScopeScript

variable {α β : Type}

def Act.sets? (object : ObjectId) (name : String) : Act → Option Value
  | .set other x v => if other = object ∧ x = name then some v else none
  | .value _ _ | .statement _ _ | .enter _ _ _ | .print _ => none

/-- The value that a field was last set to, if it ever was. -/
def lastSet (past : List Moment) (object : ObjectId) (name : String) : Option Value :=
  past.reverse.findSome? (·.act.sets? object name)

theorem lastSet_concat (past : List Moment) (moment : Moment) (object : ObjectId) (name : String) :
    lastSet (past ++ [moment]) object name =
      (moment.act.sets? object name).or (lastSet past object name) := by
  rw [lastSet, List.reverse_append, List.findSome?_append]
  cases here : moment.act.sets? object name <;> simp [lastSet, here]

/-- A point of a session: what has passed, and the machine as it is now. -/
structure Stage where
  past : List Moment
  machine : Machine

/-- A later stage. -/
structure Stage.Leads (g h : Stage) : Prop where
  past : g.past <+: h.past
  objects : g.machine.objects.size ≤ h.machine.objects.size

theorem Stage.Leads.refl (g : Stage) : g.Leads g := ⟨List.prefix_refl _, Nat.le_refl _⟩

theorem Stage.Leads.trans {g h k : Stage} (first : g.Leads h) (second : h.Leads k) : g.Leads k :=
  ⟨first.past.trans second.past, Nat.le_trans first.objects second.objects⟩

structure Class.Known (past : List Moment) (c : Class) : Prop where
  built : ∃ table, c.Built past table
  methods : ∀ x f, c.method? x = some f → f.declaration.Passed

def Callable.Known (past : List Moment) : Callable → Prop
  | .native _ => True
  | .function f => f.declaration.Passed
  | .ofClass c => c.Known past

def Value.Known (g : Stage) : Value → Prop
  | .callable f => f.Known g.past
  | .object i => i < g.machine.objects.size
  | .number _ | .string _ | .boolean _ | .nil => True

def Flow.Known (g : Stage) : Flow → Prop
  | .normal => True
  | .returned v => v.Known g

structure Stage.Known (g : Stage) : Prop where
  frames : ∀ f x v, (g.machine.store.frame f).bindings.get? x = some v → v.Known g
  origins : ∀ (i : ObjectId) o, g.machine.objects[i]? = some o → o.origin.Known g.past
  held : ∀ i x v, g.machine.field? i x = some v → v.Known g
  fields : ∀ i x, g.machine.field? i x = lastSet g.past i x

theorem Class.Known.mono {past later : List Moment} {c : Class} (known : c.Known past)
    (further : past <+: later) : c.Known later := by
  obtain ⟨⟨table, built⟩, methods⟩ := known
  exact ⟨⟨table, built.mono further⟩, methods⟩

theorem Value.Known.mono {g h : Stage} {v : Value} (known : v.Known g) (leads : g.Leads h) :
    v.Known h := by
  cases v with
  | number _ | string _ | boolean _ | nil => trivial
  | object i => exact Nat.lt_of_lt_of_le known leads.objects
  | callable f =>
    cases f with
    | native _ | function _ => exact known
    | ofClass c => exact Class.Known.mono known leads.past

/-- What was noted or printed and what the clock has shown do not matter here. -/
theorem Stage.Known.apart {past : List Moment} {m m' : Machine} (known : Stage.Known ⟨past, m⟩)
    (store : m'.store = m.store) (objects : m'.objects = m.objects) : Stage.Known ⟨past, m'⟩ := by
  obtain ⟨store', objects', _, _, _⟩ := m'
  cases store
  cases objects
  exact ⟨known.frames, known.origins, known.held, known.fields⟩

theorem Stage.Known.define {g : Stage} (known : g.Known) (f : FrameId) (name : String) {v : Value}
    (new : v.Known g) :
    Stage.Known ⟨g.past, { g.machine with store := g.machine.store.define f name v }⟩ := by
  refine ⟨?_, known.origins, known.held, known.fields⟩
  intro k x u found
  dsimp only at found
  rcases g.machine.store.frame_define_cases f name v k with kept | written
  · rw [kept] at found
    exact known.frames k x u found
  · rw [written, Table.get?_insert] at found
    split at found
    · cases found
      exact new
    · exact known.frames k x u found

/-- What is known before a moment, and the law that entering a function obeys. -/
structure Moment.Known (past : List Moment) (moment : Moment) : Prop where
  stage : Stage.Known ⟨past, moment.machine⟩
  entered : ∀ f arguments frame, moment.act = .enter f arguments frame →
    f.Entered arguments frame moment.machine

/-- Moments that come one after the other, all of them known when they come. -/
def KnownEach : (past moments : List Moment) → Prop
  | _, [] => True
  | past, moment :: rest => moment.Known past ∧ KnownEach (past ++ [moment]) rest

theorem knownEach_append {past first second : List Moment} :
    KnownEach past (first ++ second) ↔ KnownEach past first ∧ KnownEach (past ++ first) second := by
  induction first generalizing past with
  | nil => simp [KnownEach]
  | cons moment rest ih =>
    rw [List.cons_append, KnownEach, KnownEach, ih, and_assoc, ← List.append_cons]

theorem KnownEach.split {past front rest : List Moment} {moment : Moment}
    (each : KnownEach past (front ++ moment :: rest)) : moment.Known (past ++ front) :=
  (knownEach_append.mp each).2.1

namespace Traced

/-- What is known behind a step. -/
def Behind (g : Stage) (past : List Moment) (good : Stage → α → Prop) :
    EStateM.Result Stop Machine α → Prop
  | .ok a m => Stage.Known ⟨past, m⟩ ∧ g.Leads ⟨past, m⟩ ∧ good ⟨past, m⟩ a
  | .error _ m => Stage.Known ⟨past, m⟩

/-- A step from a stage, at all of whose moments enough is known, and behind it too. -/
def Tells (g : Stage) (p : Traced α) (good : Stage → α → Prop) : Prop :=
  g.Known → KnownEach g.past (p.moments g.machine) ∧
    Behind g (g.past ++ p.moments g.machine) good (p.step g.machine)

theorem lift_moments (p : Eval α) (q : α → Eval β) (m : Machine) :
    (lift p >>= fun a => lift (q a)).moments m = [] := by
  rw [moments_bind]
  cases (lift p).step m <;> rfl

theorem lift_bind (p : Eval α) (q : α → Eval β) : lift (p >>= q) = lift p >>= fun a => lift (q a) := by
  change Traced.mk (p >>= q) (fun _ => []) = Traced.mk (p >>= q) _
  congr 1
  funext m
  exact (lift_moments p q m).symm

namespace Tells
variable {g : Stage} {good : Stage → α → Prop} {good' : Stage → β → Prop}

theorem of_lift {p : Eval α} (here : g.Known → Behind g g.past good (p g.machine)) :
    Tells g (lift p) good := by
  intro known
  refine ⟨trivial, ?_⟩
  change Behind g (g.past ++ []) good (p g.machine)
  rw [List.append_nil]
  exact here known

theorem pure {a : α} (here : good g a) : Tells g (Pure.pure a) good :=
  .of_lift fun known => ⟨known, .refl g, here⟩

theorem nil : Tells g (Pure.pure Value.nil) Value.Known := .pure trivial

theorem throw (stop : Stop) : Tells g (lift (MonadExcept.throw stop) : Traced α) good :=
  .of_lift fun known => known

theorem fail (cause : RuntimeCause) (l : Lexeme) : Tells g (fail cause l : Traced α) good := .throw _

theorem bind {p : Traced α} {q : α → Traced β} (first : Tells g p good)
    (next : ∀ h a, g.Leads h → good h a → Tells h (q a) good') : Tells g (p >>= q) good' := by
  intro known
  obtain ⟨moments, behind⟩ := first known
  rw [moments_bind, step_bind]
  cases ran : p.step g.machine with
  | error stop m =>
    rw [ran] at behind
    dsimp only
    rw [List.append_nil]
    exact ⟨moments, behind⟩
  | ok a m =>
    rw [ran] at behind
    obtain ⟨known', leads, found⟩ := behind
    obtain ⟨moments', behind'⟩ := next _ a leads found known'
    refine ⟨knownEach_append.mpr ⟨moments, moments'⟩, ?_⟩
    dsimp only at behind' ⊢
    rw [← List.append_assoc]
    cases left : (q a).step m with
    | error stop m' =>
      rw [left] at behind'
      exact behind'
    | ok b m' =>
      rw [left] at behind'
      exact ⟨behind'.1, leads.trans behind'.2.1, behind'.2.2⟩

/-- A step that looks at the machine first. -/
theorem get {q : Machine → Eval α} (next : g.Known → Tells g (lift (q g.machine)) good) :
    Tells g (lift (MonadState.get >>= q)) good :=
  fun known => next known known

theorem orFault {found : Except StoreFault α} (here : ∀ a, found = .ok a → good g a) :
    Tells g (lift (Eval.orFault found)) good := by
  cases found with
  | ok a => exact .pure (here a rfl)
  | error f => exact .throw _

theorem orFail {l : Lexeme} {result : Except RuntimeCause Value}
    (here : ∀ v, result = .ok v → v.Known g) : Tells g (lift (Eval.orFail l result)) Value.Known := by
  cases result with
  | ok v => exact .pure (here v rfl)
  | error cause => exact .fail cause l

/-- A moment at which no field is set. -/
theorem marked {act : Act} {p : Traced α} (apart : ∀ i x, act.sets? i x = none)
    (entered : ∀ f arguments frame, act = .enter f arguments frame →
      f.Entered arguments frame g.machine)
    (next : Tells ⟨g.past ++ [⟨act, g.machine⟩], g.machine⟩ p good) :
    Tells g (mark act >>= fun _ => p) good := by
  have leads : g.Leads ⟨g.past ++ [⟨act, g.machine⟩], g.machine⟩ :=
    ⟨List.prefix_append _ _, Nat.le_refl _⟩
  have told : Tells g (mark act) fun h _ =>
      h = ⟨g.past ++ [⟨act, g.machine⟩], g.machine⟩ := by
    refine fun known => ⟨⟨⟨known, entered⟩, trivial⟩, ⟨?_, ?_, ?_, ?_⟩, leads, rfl⟩
    · exact fun f x v bound => (known.frames f x v bound).mono leads
    · exact fun i o there => (known.origins i o there).mono leads.past
    · exact fun i x v found => (known.held i x v found).mono leads
    · intro i x
      have last := lastSet_concat g.past ⟨act, g.machine⟩ i x
      rw [apart, Option.none_or] at last
      exact (known.fields i x).trans last.symm
  apply told.bind
  rintro h _ _ rfl
  exact next

end Tells

/-! Frames and names. -/

namespace Tells
variable {g : Stage}

theorem newFrame {frame : Frame Value} (bound : ∀ x v, frame.bindings.get? x = some v → v.Known g) :
    Tells g (lift (Eval.newFrame frame)) fun h f => h.machine.store.frame f = frame := by
  refine .of_lift fun known => ⟨⟨?_, known.origins, known.held, known.fields⟩, ?_, ?_⟩
  · intro f x v found
    dsimp only at found
    rw [Store.frame_add] at found
    split at found
    · exact bound x v found
    · exact known.frames f x v found
  · exact ⟨List.prefix_refl _, Nat.le_refl _⟩
  · exact (Store.frame_add _ _ _).trans (if_pos rfl)

theorem define (f : FrameId) (name : String) {v : Value} (known : v.Known g) :
    Tells g (lift (Eval.define f name v)) fun _ _ => True :=
  .of_lift fun all => ⟨all.define f name known, ⟨List.prefix_refl _, Nat.le_refl _⟩, trivial⟩

theorem readName (f : FrameId) (id : ExprId) (name : Lexeme) :
    Tells g (lift (Eval.readName f id name)) Value.Known := by
  refine .of_lift fun known => ?_
  rcases Eval.readName_cases f id name g.machine with ⟨v, k, read, bound⟩ | ⟨stop, failed⟩
  · rw [read]
    exact ⟨known, .refl g, known.frames k name.text v bound⟩
  · rw [failed]
    exact known

theorem writeName (f : FrameId) (id : ExprId) (name : Lexeme) {v : Value} (known : v.Known g) :
    Tells g (lift (Eval.writeName f id name v)) fun _ _ => True := by
  have owner : Tells g (lift (Eval.ownerOf f id name)) fun _ _ => True := by
    refine .of_lift fun all => ?_
    rcases Eval.ownerOf_cases f id name g.machine with ⟨k, found, _⟩ | ⟨stop, failed⟩
    · rw [found]
      exact ⟨all, .refl g, trivial⟩
    · rw [failed]
      exact all
  rw [Eval.writeName, lift_bind]
  exact owner.bind fun h k leads _ => .define k name.text (known.mono leads)

end Tells

/-! Objects. -/

namespace Tells
variable {g : Stage}

theorem newObject {c : Class} (known : c.Known g.past) :
    Tells g (lift (Eval.newObject c)) fun h i => i < h.machine.objects.size := by
  refine .of_lift fun all => ?_
  let m : Machine := { g.machine with objects := g.machine.objects.push { origin := c } }
  have leads : g.Leads ⟨g.past, m⟩ := ⟨List.prefix_refl _, by simp [m]⟩
  have same (i : ObjectId) (x : String) : m.field? i x = g.machine.field? i x :=
    (Plain.newObject c).fields g.machine i x
  refine ⟨⟨?_, ?_, ?_, ?_⟩, leads, by simp⟩
  · exact fun f x v bound => (all.frames f x v bound).mono leads
  · intro i o there
    dsimp only at there
    rw [Array.getElem?_push] at there
    split at there
    · cases there
      exact known
    · exact all.origins i o there
  · intro i x v found
    exact (all.held i x v ((same i x).symm.trans found)).mono leads
  · exact fun i x => (same i x).trans (all.fields i x)

/-- The fields of an object behind a change of one of them. -/
theorem field?_setField (m : Machine) {object : ObjectId} (there : object < m.objects.size)
    (name : String) (v : Value) (i : ObjectId) (x : String) :
    (machineBehind (Eval.setField object name v m)).field? i x =
      if object = i ∧ name = x then some v else m.field? i x := by
  simp only [Eval.setField, machineBehind, Machine.field?, Array.getElem?_modify]
  by_cases same : object = i
  · subst same
    rw [if_pos rfl, Array.getElem?_eq_getElem there]
    simp only [Option.map_some, Option.bind_some, Table.get?_insert, true_and]
  · rw [if_neg same, if_neg (fun both => same both.1)]

theorem setField {object : ObjectId} (there : object < g.machine.objects.size) (name : String)
    {v : Value} (known : v.Known g) : Tells g (setField object name v) fun _ _ => True := by
  intro all
  refine ⟨⟨⟨all, fun _ _ _ => Act.noConfusion⟩, trivial⟩, ?_⟩
  let m : Machine := machineBehind (Eval.setField object name v g.machine)
  let moment : Moment := ⟨.set object name v, g.machine⟩
  have leads : g.Leads ⟨g.past ++ [moment], m⟩ := by
    refine ⟨List.prefix_append _ _, Nat.le_of_eq ?_⟩
    simp [m, machineBehind, Eval.setField]
  have changed (i : ObjectId) (x : String) : m.field? i x =
    if object = i ∧ name = x then some v else g.machine.field? i x :=
      field?_setField g.machine there name v i x
  have later : Stage.Known ⟨g.past ++ [moment], m⟩ := by
    refine ⟨?_, ?_, ?_, ?_⟩
    · exact fun f x u bound => (all.frames f x u bound).mono leads
    · intro i o found
      change (g.machine.objects.modify object _)[i]? = some o at found
      rw [Array.getElem?_modify] at found
      split at found
      · obtain ⟨old, here, rfl⟩ := Option.map_eq_some_iff.mp found
        exact (all.origins i old here).mono leads.past
      · exact (all.origins i o found).mono leads.past
    · intro i x u found
      rw [changed i x] at found
      split at found
      · cases found
        exact known.mono leads
      · exact (all.held i x u found).mono leads
    · intro i x
      rw [lastSet_concat, ← all.fields i x, changed i x]
      simp only [moment, Act.sets?]
      split <;> rfl
  exact ⟨later, leads, trivial⟩

theorem bindMethod (method : Closure) {object : ObjectId} (there : object < g.machine.objects.size) :
    Tells g (lift (Eval.bindMethod method object)) fun _ bound =>
      bound.declaration = method.declaration := by
  rw [Eval.bindMethod, lift_bind]
  refine Tells.bind (.newFrame fun x v found => ?_) fun _ _ _ _ => .pure rfl
  cases List.mem_singleton.mp (Table.mem_of_get?_ofList found)
  exact there

theorem readProperty {object : ObjectId} (there : object < g.machine.objects.size) (name : Lexeme) :
    Tells g (lift (Eval.readProperty object name)) Value.Known := by
  refine .get fun known => ?_
  split
  · next v found => exact .pure (known.held object name.text v found)
  · split
    · next method found =>
      obtain ⟨o, here, found⟩ := Option.bind_eq_some_iff.mp found
      have passed := (known.origins object o here).methods name.text method found
      rw [lift_bind]
      refine (bindMethod method there).bind fun _ bound _ same => .pure ?_
      change bound.declaration.Passed
      rw [same]
      exact passed
    · exact .fail _ name

theorem readClock : Tells g (lift Eval.readClock) fun _ _ => True :=
  .of_lift fun known => ⟨known.apart rfl rfl, ⟨List.prefix_refl _, Nat.le_refl _⟩, trivial⟩

end Tells
end Traced
end ScopeScript
