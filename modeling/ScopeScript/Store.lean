import ScopeScript.Table

/-! A store of scope frames. Frames are numbered in the order of their creation; each
binds names of its own and may be enclosed by another. A name is looked up either along
the chain of enclosing frames, or in the frame a fixed number of links out. -/
namespace ScopeScript

abbrev FrameId := Nat

structure Frame (α : Type) where
  bindings : Table α := {}
  enclosing : Option FrameId := none

/-- A look-up at a fixed distance that the frames do not fit. -/
inductive StoreFault where
  | unbound (name : String)
  | chainTooShort (remaining : Nat)
  deriving DecidableEq, Repr

def StoreFault.message : StoreFault → String
  | unbound name => "resolved local '" ++ name ++ "' is not bound in its frame"
  | chainTooShort remaining =>
    "resolved distance " ++ toString remaining ++ " exceeds the frame chain"

structure Store (α : Type) where
  frames : Array (Frame α) := #[]

namespace Store
variable {α : Type}

def frame (s : Store α) (f : FrameId) : Frame α := s.frames.getD f {}

/-- The number that the next frame gets. -/
def nextFrame (s : Store α) : FrameId := s.frames.size

/-- Adds a frame. -/
def add (s : Store α) (frame : Frame α) : Store α := ⟨s.frames.push frame⟩

/-- Binds a name in a frame itself, replacing any binding it has there. -/
def define (s : Store α) (f : FrameId) (name : String) (value : α) : Store α :=
  ⟨s.frames.modify f fun frame => { frame with bindings := frame.bindings.insert name value }⟩

def binds (s : Store α) (f : FrameId) (name : String) : Bool := (s.frame f).bindings.contains name

/-- A frame and the frames that enclose it, from the inside out, at most `bound` of them. -/
def chainUpTo (s : Store α) : (bound : Nat) → FrameId → List FrameId
  | 0, _ => []
  | bound + 1, f => f :: (s.frame f).enclosing.elim [] (s.chainUpTo bound)

/-- A frame and the frames that enclose it. No frame occurs twice when every link points
to an older frame, so there are no more of them than frames. -/
def chain (s : Store α) (f : FrameId) : List FrameId := s.chainUpTo s.frames.size f

/-- The nearest frame on a frame's chain that binds a name. -/
def owner? (s : Store α) (f : FrameId) (name : String) : Option FrameId :=
  (s.chain f).find? (s.binds · name)

/-- Reads a name along the chain. -/
def get? (s : Store α) (f : FrameId) (name : String) : Option α :=
  (s.owner? f name).bind fun g => (s.frame g).bindings.get? name

/-- Writes a name where the chain binds it. -/
def assign? (s : Store α) (f : FrameId) (name : String) (value : α) : Option (Store α) :=
  (s.owner? f name).map fun g => s.define g name value

/-- The frame exactly `distance` links out. -/
def ancestor (s : Store α) : (distance : Nat) → FrameId → Except StoreFault FrameId
  | 0, f => .ok f
  | distance + 1, f =>
    match (s.frame f).enclosing with
    | none => .error (.chainTooShort (distance + 1))
    | some g => s.ancestor distance g

/-- The frame exactly `distance` links out, which has to bind the name. -/
def ownerAt (s : Store α) (f : FrameId) (distance : Nat) (name : String) :
    Except StoreFault FrameId :=
  match s.ancestor distance f with
  | .error fault => .error fault
  | .ok g => if s.binds g name then .ok g else .error (.unbound name)

/-- Reads a name in the frame exactly `distance` links out. -/
def getAt (s : Store α) (f : FrameId) (distance : Nat) (name : String) : Except StoreFault α :=
  match s.ancestor distance f with
  | .error fault => .error fault
  | .ok g =>
    match (s.frame g).bindings.get? name with
    | some value => .ok value
    | none => .error (.unbound name)

/-- Writes a name in the frame exactly `distance` links out. -/
def assignAt (s : Store α) (f : FrameId) (distance : Nat) (name : String) (value : α) :
    Except StoreFault (Store α) :=
  match s.ownerAt f distance name with
  | .error fault => .error fault
  | .ok g => .ok (s.define g name value)

@[simp] theorem size_add (s : Store α) (frame : Frame α) :
    (s.add frame).frames.size = s.frames.size + 1 := Array.size_push _

@[simp] theorem size_define (s : Store α) (f : FrameId) (name : String) (value : α) :
    (s.define f name value).frames.size = s.frames.size := Array.size_modify

theorem frame_add (s : Store α) (frame : Frame α) (f : FrameId) :
    (s.add frame).frame f = if f = s.nextFrame then frame else s.frame f := by
  simp only [Store.frame, add, nextFrame, Array.getD_eq_getD_getElem?, Array.getElem?_push]
  split <;> rfl

theorem frame_define (s : Store α) {f : FrameId} (inside : f < s.frames.size) (name : String)
    (value : α) (g : FrameId) :
    (s.define f name value).frame g =
      if f = g then { s.frame f with bindings := (s.frame f).bindings.insert name value }
      else s.frame g := by
  simp only [Store.frame, define, Array.getD_eq_getD_getElem?, Array.getElem?_modify]
  split
  · next same => simp [← same, inside]
  · rfl

theorem define_define (s : Store α) (f : FrameId) (name : String) (first second : α) :
    (s.define f name first).define f name second = s.define f name second := by
  simp only [define, mk.injEq]
  apply Array.ext
  · simp
  · intro i _ _
    simp only [Array.getElem_modify]
    split <;> simp [Table.insert_insert]

/-- The global names are looked up in a frame that nothing encloses. -/
theorem owner?_eq_of_enclosing_eq_none (s : Store α) {f : FrameId} (outermost :
    (s.frame f).enclosing = none) (nonempty : 0 < s.frames.size) (name : String) :
    s.owner? f name = if s.binds f name then some f else none := by
  obtain ⟨bound, size⟩ : ∃ bound, s.frames.size = bound + 1 := ⟨s.frames.size - 1, by omega⟩
  simp only [owner?, chain, size, chainUpTo, outermost, Option.elim_none, List.find?_cons,
    List.find?_nil]
  split <;> simp_all

theorem get?_eq_of_enclosing_eq_none (s : Store α) {f : FrameId} (outermost :
    (s.frame f).enclosing = none) (nonempty : 0 < s.frames.size) (name : String) :
    s.get? f name = (s.frame f).bindings.get? name := by
  rw [get?, owner?_eq_of_enclosing_eq_none s outermost nonempty]
  split
  · rfl
  · next unbound =>
    simp only [binds, Table.contains, Bool.not_eq_true, Option.isSome_eq_false_iff,
      Option.isNone_iff_eq_none] at unbound
    simp [unbound]

end Store
end ScopeScript
