import ScopeScript.Machine.Evaluate
import ScopeScript.Proofs.Frames.Heap
import ScopeScript.Proofs.Tree.Shape

/-! Which names the frames bind. A value is written where its name is bound already, and a
declaration binds a name in the frame it runs in. So of all frames that are there, only that one may
bind more names when a statement has run, and if the statement is not a declaration itself, none
does. What is declared in blocks and functions goes to frames that are made for them. -/
namespace ScopeScript

/-- The machine at the end of a step, however it ends. -/
def machineBehind {α : Type} : EStateM.Result Stop Machine α → Machine
  | .ok _ m | .error _ m => m

/-- All frames of a machine bind the names they did, but for one that may change. -/
structure Machine.Leaves (changing : Option FrameId) (m m' : Machine) : Prop where
  frames : m.store.frames.size ≤ m'.store.frames.size
  names : ∀ f < m.store.frames.size, changing ≠ some f →
    (m'.store.frame f).bindings.names = (m.store.frame f).bindings.names

/-- A step that leaves the names of all frames but one. -/
def Leaving {α : Type} (changing : Option FrameId) (p : Eval α) : Prop :=
  ∀ m : Machine, m.Leaves changing (machineBehind (p m))

variable {α β : Type} {changing : Option FrameId}

namespace Machine.Leaves
variable {m m' m'' : Machine}

theorem refl (changing : Option FrameId) (m : Machine) : m.Leaves changing m :=
  ⟨Nat.le_refl _, fun _ _ _ => rfl⟩

theorem trans (first : m.Leaves changing m') (second : m'.Leaves changing m'') :
    m.Leaves changing m'' where
  frames := Nat.le_trans first.frames second.frames
  names f inside other :=
    (second.names f (Nat.lt_of_lt_of_le inside first.frames) other).trans
      (first.names f inside other)

theorem of_store_eq (same : m'.store = m.store) : m.Leaves changing m' :=
  ⟨Nat.le_of_eq (by rw [same]), fun f _ _ => by rw [same]⟩

end Machine.Leaves

theorem Table.names_insert_of_contains {t : Table α} {name : String} (bound : t.contains name = true)
    (value : α) : (t.insert name value).names = t.names := by
  rw [t.names_insert, if_pos ((t.mem_names_iff name).mpr bound)]

theorem Store.frame_define_of_ne (s : Store α) {f g : FrameId} (other : f ≠ g) (name : String)
    (value : α) : (s.define f name value).frame g = s.frame g := by
  simp only [Store.frame, Store.define, Array.getD_eq_getD_getElem?, Array.getElem?_modify]
  rw [if_neg other]

theorem Store.binds_of_ownerAt {s : Store α} {f g : FrameId} {distance : Nat} {name : String}
    (owned : s.ownerAt f distance name = .ok g) : s.binds g name = true := by
  unfold Store.ownerAt at owned
  split at owned
  · contradiction
  · split at owned
    · next bound =>
      cases owned
      exact bound
    · contradiction

/-- The frame that a use of a name writes to binds the name. -/
theorem Eval.ownerOf_cases (f : FrameId) (id : ExprId) (name : Lexeme) (m : Machine) :
    (∃ g, ownerOf f id name m = .ok g m ∧ m.store.binds g name.text = true) ∨
      ∃ stop, ownerOf f id name m = .error stop m := by
  rw [ownerOf, get_bind]
  cases m.distances.get? id with
  | some distance =>
    dsimp only
    cases found : m.store.ownerAt f distance name.text with
    | ok g => exact .inl ⟨g, rfl, Store.binds_of_ownerAt found⟩
    | error fault => exact .inr ⟨_, rfl⟩
  | none =>
    dsimp only
    cases found : m.store.owner? globalFrame name.text with
    | some g => exact .inl ⟨g, rfl, List.find?_some (p := (m.store.binds · name.text)) found⟩
    | none => exact .inr ⟨_, rfl⟩

/-- A name that is read is bound to the value in some frame. -/
theorem Eval.readName_cases (f : FrameId) (id : ExprId) (name : Lexeme) (m : Machine) :
    (∃ v g, readName f id name m = .ok v m ∧ (m.store.frame g).bindings.get? name.text = some v) ∨
      ∃ stop, readName f id name m = .error stop m := by
  rw [readName, get_bind]
  cases m.distances.get? id with
  | some distance =>
    dsimp only
    cases found : m.store.getAt f distance name.text with
    | ok v =>
      obtain ⟨g, bound⟩ := Store.getAt_eq_ok found
      exact .inl ⟨v, g, rfl, bound⟩
    | error fault => exact .inr ⟨_, rfl⟩
  | none =>
    dsimp only
    cases found : m.store.get? globalFrame name.text with
    | some v =>
      obtain ⟨g, _, bound⟩ := Option.bind_eq_some_iff.mp found
      exact .inl ⟨v, g, rfl, bound⟩
    | none => exact .inr ⟨_, rfl⟩

namespace Leaving
variable {p : Eval α} {q : α → Eval β}

theorem pure (a : α) : Leaving changing (Pure.pure a) := fun m => .refl changing m

theorem throw (stop : Stop) : Leaving changing (MonadExcept.throw stop : Eval α) :=
  fun m => .refl changing m

theorem bind (first : Leaving changing p) (next : ∀ a, Leaving changing (q a)) :
    Leaving changing (p >>= q) := by
  intro m
  have here := first m
  simp only [Bind.bind, EStateM.bind]
  cases ran : p m with
  | error stop m' =>
    rw [ran] at here
    exact here
  | ok a m' =>
    rw [ran] at here
    exact here.trans (next a m')

theorem get {q : Machine → Eval β} (next : ∀ m, Leaving changing (q m)) :
    Leaving changing (MonadState.get >>= q) :=
  fun m => next m m

theorem mono (leaves : Leaving none p) (changing : Option FrameId) : Leaving changing p :=
  fun m => ⟨(leaves m).frames, fun f inside _ => (leaves m).names f inside nofun⟩

/-- A frame that is made on the way was not there before. -/
theorem inNewFrame (frame : Frame Value) {q : FrameId → Eval β}
    (next : ∀ f, Leaving (some f) (q f)) : Leaving changing (Eval.newFrame frame >>= q) := by
  intro m
  have there := next m.store.nextFrame { m with store := m.store.add frame }
  have size : (m.store.add frame).frames.size = m.store.frames.size + 1 := Store.size_add _ _
  refine ⟨Nat.le_trans (by omega) (size ▸ there.frames), fun f inside _ => ?_⟩
  have old : f ≠ m.store.nextFrame := Nat.ne_of_lt inside
  have kept := there.names f (by dsimp only; omega) fun same => old (Option.some.inj same).symm
  rw [Store.frame_add, if_neg old] at kept
  exact kept

theorem fail (cause : RuntimeCause) (place : Lexeme) :
    Leaving changing (Eval.fail cause place : Eval α) :=
  .throw _

theorem orFault (found : Except StoreFault α) : Leaving changing (Eval.orFault found) := by
  cases found with
  | ok a => exact .pure a
  | error f => exact .throw _

theorem orFail (place : Lexeme) (result : Except RuntimeCause Value) :
    Leaving changing (Eval.orFail place result) := by
  cases result with
  | ok v => exact .pure v
  | error cause => exact .fail cause place

theorem define (f : FrameId) (name : String) (v : Value) :
    Leaving (some f) (Eval.define f name v) := by
  intro m
  refine ⟨Nat.le_of_eq (Store.size_define _ _ _ _).symm, fun g _ other => ?_⟩
  have kept := m.store.frame_define_of_ne (fun same => other (congrArg some same)) name v
  exact congrArg (·.bindings.names) kept

/-- A value is written where its name is bound. -/
theorem writeName (f : FrameId) (id : ExprId) (name : Lexeme) (v : Value) :
    Leaving changing (Eval.writeName f id name v) := by
  intro m
  simp only [Eval.writeName, Bind.bind, EStateM.bind]
  rcases Eval.ownerOf_cases f id name m with ⟨g, owned, bound⟩ | ⟨stop, refused⟩
  · rw [owned]
    have elsewhere := define g name.text v m
    refine ⟨elsewhere.frames, fun h inside _ => ?_⟩
    by_cases same : g = h
    · subst same
      rcases m.store.frame_define_cases g name.text v g with kept | written
      · exact congrArg (·.bindings.names) kept
      · rw [Table.names_insert_of_contains bound v |>.symm]
        exact congrArg (·.bindings.names) written
    · exact elsewhere.names h inside fun equal => same (Option.some.inj equal)
  · rw [refused]
    exact .refl changing m

theorem readName (f : FrameId) (id : ExprId) (name : Lexeme) :
    Leaving changing (Eval.readName f id name) := by
  refine .get fun m => ?_
  split
  · exact .orFault _
  · split
    · exact .pure _
    · exact .fail _ name

theorem newObject (c : Class) : Leaving changing (Eval.newObject c) := fun _ => .of_store_eq rfl

theorem setField (object : ObjectId) (name : String) (v : Value) :
    Leaving changing (Eval.setField object name v) :=
  fun _ => .of_store_eq rfl

theorem readClock : Leaving changing Eval.readClock := fun _ => .of_store_eq rfl

theorem print (v : Value) : Leaving changing (Eval.print v) := by
  intro m
  unfold Eval.print
  dsimp only
  split <;> exact .of_store_eq rfl

theorem flush : Leaving changing Eval.flush := by
  intro m
  unfold Eval.flush
  split <;> exact .refl changing m

theorem bindMethod (method : Closure) (object : ObjectId) :
    Leaving changing (Eval.bindMethod method object) :=
  .inNewFrame _ fun _ => .pure _

theorem readProperty (object : ObjectId) (name : Lexeme) :
    Leaving changing (Eval.readProperty object name) := by
  refine .get fun m => ?_
  split
  · exact .pure _
  · split
    · exact (bindMethod _ object).bind fun _ => .pure _
    · exact .fail _ name

/-! Calls and declarations. -/

theorem valueEach {value : Expr → Eval Value} (values : ∀ e, Leaving changing (value e))
    (es : List Expr) : Leaving changing (Eval.valueEach value es) := by
  induction es with
  | nil => exact .pure _
  | cons e rest ih => exact (values e).bind fun v => ih.bind fun vs => .pure _

theorem runEach {run : Stmt → Eval Flow} (runs : ∀ s, Leaving changing (run s))
    (body : List Stmt) : Leaving changing (Eval.runEach run body) := by
  induction body with
  | nil => exact .pure _
  | cons s rest ih =>
    apply (runs s).bind
    intro flow
    cases flow with
    | normal => exact ih
    | returned v => exact .pure _

section
variable {run : FrameId → Stmt → Eval Flow} (runs : ∀ f s, Leaving (some f) (run f s))
include runs

/-- The body of a function declares in a frame of its own. -/
theorem callClosure (g : Closure) (arguments : List Value) :
    Leaving changing (Eval.callClosure run g arguments) := by
  refine .inNewFrame _ fun f => (runEach (runs f) _).bind fun flow => ?_
  split
  · exact .get fun _ => .orFault _
  · cases flow <;> exact .pure _

theorem construct (c : Class) (arguments : List Value) :
    Leaving changing (Eval.construct run c arguments) := by
  apply (newObject c).bind
  intro object
  split
  · exact .pure _
  · exact (bindMethod _ object).bind fun bound =>
      (callClosure runs bound arguments).bind fun _ => .pure _

theorem call (callee : Value) (arguments : List Value) (closing : Lexeme) :
    Leaving changing (Eval.call run callee arguments closing) := by
  unfold Eval.call
  cases callee with
  | number _ | string _ | boolean _ | nil | object _ => exact .fail _ closing
  | callable g =>
    dsimp only
    split
    · cases g with
      | native g => exact readClock.bind fun _ => .pure _
      | function g => exact callClosure runs g arguments
      | ofClass c => exact construct runs c arguments
    · exact .fail _ closing

end

theorem superclassOf (f : FrameId) (superclass : Option Superclass) :
    Leaving changing (Eval.superclassOf f superclass) := by
  cases superclass with
  | none => exact .pure _
  | some s =>
    apply (readName f s.id s.name).bind
    intro v
    split
    · exact .pure _
    · exact .fail _ s.name

theorem declareClass (f : FrameId) (name : Lexeme) (superclass : Option Superclass)
    (methods : List FunctionDecl) :
    Leaving (some f) (Eval.declareClass f name superclass methods) :=
  (define f name.text _).bind fun _ =>
    (superclassOf f superclass).bind fun _ => .define f name.text _

end Leaving

/-! Expressions, statements and loops. -/

/-- A statement that may declare names in a frame only. -/
def Stmt.DeclaresIn (s : Stmt) (f : FrameId) (changing : Option FrameId) : Prop :=
  changing = some f ∨ s.isDeclaration = false ∧ s.Ranked

def LeavingValues (value : FrameId → Expr → Eval Value) : Prop :=
  ∀ (changing : Option FrameId) (f : FrameId) (e : Expr), Leaving changing (value f e)

def LeavingRuns (run : FrameId → Stmt → Eval Flow) : Prop :=
  ∀ {changing : Option FrameId} {f : FrameId} {s : Stmt}, s.DeclaresIn f changing →
    Leaving changing (run f s)

def LeavingRounds (loop : FrameId → Expr → Stmt → Eval Flow) : Prop :=
  ∀ {changing : Option FrameId} {f : FrameId} (condition : Expr) {body : Stmt},
    body.DeclaresIn f changing → Leaving changing (loop f condition body)

variable {fuel : Nat}

theorem leavingValues_succ (values : LeavingValues (evaluate fuel))
    (runs : LeavingRuns (execute fuel)) : LeavingValues (evaluate (fuel + 1)) := by
  intro changing f e
  have value := values changing f
  unfold evaluate
  cases e with
  | literal id value => exact .pure _
  | group id inner => exact value inner
  | var id name | this id name => exact .readName f id name
  | assign id name inner =>
    exact (value inner).bind fun v => (Leaving.writeName f id name v).bind fun _ => .pure v
  | unary id op sign operand => exact (value operand).bind fun _ => .orFail _ _
  | binary id op sign left right =>
    exact (value left).bind fun _ => (value right).bind fun _ => .orFail _ _
  | logical id op sign left right =>
    apply (value left).bind
    intro v
    split
    · exact .pure v
    · exact value right
  | call id callee arguments closing =>
    apply (value callee).bind
    intro g
    apply (Leaving.valueEach value arguments).bind
    intro vs
    exact Leaving.call (fun f s => runs (.inl rfl)) g vs closing
  | get id object property =>
    apply (value object).bind
    intro v
    cases v with
    | object i => exact .readProperty i property
    | number _ | string _ | boolean _ | nil | callable _ => exact .fail _ property
  | set id object property inner =>
    apply (value object).bind
    intro v
    cases v with
    | object i =>
      exact (value inner).bind fun v => (Leaving.setField i property.text v).bind fun _ => .pure v
    | number _ | string _ | boolean _ | nil | callable _ => exact .fail _ property

/-- Where only a declaration may go on, the frame is the one that may change. -/
theorem Stmt.DeclaresIn.frame {s : Stmt} {f : FrameId} (here : s.DeclaresIn f changing)
    (declaration : s.isDeclaration = true) : changing = some f := by
  rcases here with same | ⟨plain, _⟩
  · exact same
  · rw [declaration] at plain
    contradiction

theorem leavingRuns_succ (values : LeavingValues (evaluate fuel)) (runs : LeavingRuns (execute fuel))
    (loops : LeavingRounds (rounds fuel)) : LeavingRuns (execute (fuel + 1)) := by
  intro changing f s here
  have value := values changing f
  unfold execute
  cases s with
  | expression inner => exact (value inner).bind fun _ => .pure _
  | print inner => exact (value inner).bind fun v => (Leaving.print v).bind fun _ => .pure _
  | var name initial =>
    cases here.frame rfl
    have declared (v : Value) :
        Leaving (some f) (do Eval.define f name.text v; return Flow.normal) :=
      (Leaving.define f name.text v).bind fun _ => .pure _
    cases initial with
    | none => exact declared .nil
    | some e => exact (value e).bind declared
  | block body =>
    exact .inNewFrame _ fun inner => .runEach (fun s => runs (.inl rfl)) body
  | ifThen condition yes =>
    apply (value condition).bind
    intro v
    split
    · exact runs (here.imp_right And.right)
    · exact .pure _
  | ifElse condition yes no =>
    apply (value condition).bind
    intro v
    split
    · exact runs (here.imp_right fun plain => plain.2.1)
    · exact runs (here.imp_right fun plain => plain.2.2)
  | whileLoop condition body => exact loops condition (here.imp_right And.right)
  | function declaration =>
    cases here.frame rfl
    exact (Leaving.define f _ _).bind fun _ => .pure _
  | returns keyword initial =>
    cases initial with
    | none => exact .pure _
    | some e => exact (value e).bind fun _ => .pure _
  | classDecl name superclass methods =>
    cases here.frame rfl
    exact (Leaving.declareClass f name superclass methods).bind fun _ => .pure _

theorem leavingRounds_succ (values : LeavingValues (evaluate fuel))
    (runs : LeavingRuns (execute fuel)) (loops : LeavingRounds (rounds fuel)) :
    LeavingRounds (rounds (fuel + 1)) := by
  intro changing f condition body here
  unfold rounds
  apply (values changing f condition).bind
  intro v
  split
  · apply (runs here).bind
    intro flow
    cases flow with
    | normal => exact loops condition here
    | returned v => exact .pure _
  · exact .pure _

/-- With any amount of fuel, from every machine and in every frame. -/
theorem evaluation_leaves (fuel : Nat) : LeavingValues (evaluate fuel) ∧
    LeavingRuns (execute fuel) ∧ LeavingRounds (rounds fuel) := by
  induction fuel with
  | zero => exact ⟨fun _ _ _ => .throw _, fun _ => .throw _, fun _ _ _ => .throw _⟩
  | succ fuel ih =>
    obtain ⟨values, runs, loops⟩ := ih
    exact ⟨leavingValues_succ values runs, leavingRuns_succ values runs loops,
      leavingRounds_succ values runs loops⟩

end ScopeScript
