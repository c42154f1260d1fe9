import ScopeScript.Machine.Operator
import ScopeScript.Scope.Resolve

/-! The state of a running program, and the steps on it that every construct is made of. -/
namespace ScopeScript

/-- Where printed text goes: the bytes taken so far, at most `capacity` of them. A sink has its own
texts for what it refuses. -/
structure Sink where
  written : ByteArray := .empty
  capacity : Option Nat := none
  flushable : Bool := true
  fullText : String := "sink is full"
  flushText : String := "flush refused"

/-- What a sink refused, with its text for that. -/
inductive SinkError where
  | full (text : String)
  | flushRefused (text : String)
  deriving DecidableEq, Repr

def SinkError.message : SinkError → String
  | full text | flushRefused text => text

namespace Sink

/-- How many of some bytes still fit. -/
def room (s : Sink) (size : Nat) : Nat :=
  s.capacity.elim size fun n => min size (n - s.written.size)

/-- Takes the bytes that fit. -/
def write (s : Sink) (bytes : ByteArray) : Sink :=
  { s with written := s.written ++ bytes.extract 0 (s.room bytes.size) }

end Sink

/-- What `clock` reads, one reading after the other. -/
structure Clock where
  reading : Nat → Float
  ticks : Nat := 0

/-- All that a program can change, and the distances noted for it. Frame 0 is global. -/
structure Machine where
  store : Store Value
  objects : Array Object := #[]
  distances : Distances := {}
  sink : Sink := {}
  clock : Clock

structure RuntimeError where
  cause : RuntimeCause
  line : Nat
  deriving DecidableEq, Repr

/-- A disagreement between a program and the distances noted for it. -/
inductive Fault where
  | store (f : StoreFault)
  | topLevelReturn
  deriving DecidableEq, Repr

def Fault.message : Fault → String
  | store f => f.message
  | topLevelReturn =>
    "internal error: entered unreachable code: resolver rejects top-level return"

/-- Why a run stops before its end. -/
inductive Stop where
  | error (e : RuntimeError)
  | output (e : SinkError)
  | fault (f : Fault)
  | exhausted
  deriving DecidableEq, Repr

/-- A step on the machine. A step that stops leaves behind what it has done so far. -/
abbrev Eval := EStateM Stop Machine

/-- The frame of global names. -/
def globalFrame : FrameId := 0

namespace Machine

/-- A machine that has run nothing: the global frame binds the native functions. -/
def start (sink : Sink) (clock : Clock) : Machine where
  store := Store.add {} { bindings := .ofList [(Native.clock.name, .callable (.native .clock))] }
  sink := sink
  clock := clock

def globalNames (m : Machine) : List String := (m.store.frame globalFrame).bindings.sortedNames

/-- Adds to the distances noted so far. -/
def note (m : Machine) (entries : List (ExprId × Nat)) : Machine :=
  { m with distances := m.distances.note entries }

end Machine

namespace Eval

theorem get_bind (q : Machine → Eval α) (m : Machine) : (get >>= q) m = q m m := rfl

def fail (cause : RuntimeCause) (l : Lexeme) : Eval α := throw (.error ⟨cause, l.line⟩)

/-- The result of an operator written at `l`. -/
def orFail (l : Lexeme) : Except RuntimeCause Value → Eval Value
  | .ok v => return v
  | .error cause => fail cause l

/-- A look-up at a noted distance, which has to fit. -/
def orFault : Except StoreFault α → Eval α
  | .ok a => return a
  | .error f => throw (.fault (.store f))

def newFrame (frame : Frame Value) : Eval FrameId := fun m =>
  .ok m.store.nextFrame { m with store := m.store.add frame }

def define (frame : FrameId) (name : String) (value : Value) : Eval Unit := fun m =>
  .ok () { m with store := m.store.define frame name value }

/-- Reads a name at the distance noted for its use, or else among the globals. -/
def readName (frame : FrameId) (id : ExprId) (name : Lexeme) : Eval Value := do
  let m ← get
  match m.distances.get? id with
  | some distance => orFault (m.store.getAt frame distance name.text)
  | none =>
    match m.store.get? globalFrame name.text with
    | some v => return v
    | none => fail (.undefinedVariable name.text) name

/-- The frame that a use of a name writes to. -/
def ownerOf (frame : FrameId) (id : ExprId) (name : Lexeme) : Eval FrameId := do
  let m ← get
  match m.distances.get? id with
  | some distance => orFault (m.store.ownerAt frame distance name.text)
  | none =>
    match m.store.owner? globalFrame name.text with
    | some owner => return owner
    | none => fail (.undefinedVariable name.text) name

/-- Writes a name at the distance noted for its use, or else among the globals. -/
def writeName (frame : FrameId) (id : ExprId) (name : Lexeme) (value : Value) : Eval Unit := do
  let owner ← ownerOf frame id name
  define owner name.text value

def newObject (origin : Class) : Eval ObjectId := fun m =>
  .ok m.objects.size { m with objects := m.objects.push { origin } }

def setField (object : ObjectId) (name : String) (value : Value) : Eval Unit := fun m =>
  .ok () { m with
    objects := m.objects.modify object fun o => { o with fields := o.fields.insert name value } }

/-- A method of an object: the closure inside a new frame that binds `this` to the object. -/
def bindMethod (method : Closure) (object : ObjectId) : Eval Closure := do
  let frame ← newFrame
    { bindings := .ofList [(thisName, .object object)], enclosing := some method.scope }
  return { method with scope := frame }

/-- A field of an object, else a method of its class bound to it. -/
def readProperty (object : ObjectId) (name : Lexeme) : Eval Value := do
  let m ← get
  match (m.objects[object]?).bind (·.fields.get? name.text) with
  | some v => return v
  | none =>
    match (m.objects[object]?).bind (·.origin.method? name.text) with
    | some method => return .callable (.function (← bindMethod method object))
    | none => fail (.undefinedProperty name.text) name

def readClock : Eval Float := fun m =>
  .ok (m.clock.reading m.clock.ticks)
    { m with clock := { m.clock with ticks := m.clock.ticks + 1 } }

/-- Writes a value and the end of its line; what does not fit is lost and stops the run. -/
def print (value : Value) : Eval Unit := fun m =>
  let bytes := (value.text m.objects ++ "\n").toUTF8
  let fits := m.sink.room bytes.size = bytes.size
  let m := { m with sink := m.sink.write bytes }
  if fits then .ok () m else .error (.output (.full m.sink.fullText)) m

def flush : Eval Unit := fun m =>
  if m.sink.flushable then .ok () m else .error (.output (.flushRefused m.sink.flushText)) m

end Eval
end ScopeScript
