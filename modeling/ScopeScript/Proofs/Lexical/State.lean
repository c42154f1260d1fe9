import ScopeScript.Machine.State

/-! Lexical scoping without frames and without distances. Code sees a map from local names
to locations that never changes; a declaration gives the code behind it another map. Names
that are not in the map are global and are looked up by name. -/
namespace ScopeScript.Lexical

abbrev Location := Nat

/-- The local names that code can see, each with the location of its value. -/
abbrev Names := Table Location

structure Machine where
  globals : Table (Value Names)
  cells : Array (Value Names) := #[]
  objects : Array (Object Names) := #[]
  sink : Sink := {}
  clock : Clock

namespace Machine

def start (sink : Sink) (clock : Clock) : Machine where
  globals := .ofList [(Native.clock.name, .callable (.native .clock))]
  sink := sink
  clock := clock

def globalNames (m : Machine) : List String := m.globals.sortedNames

/-- The value of a name: at its location if it is local, else among the globals. -/
def value? (m : Machine) (names : Names) (name : String) : Option (Value Names) :=
  match names.get? name with
  | some location => m.cells[location]?
  | none => m.globals.get? name

end Machine

abbrev Eval := EStateM Stop Machine

/-- Where a statement stands: at the top level, or inside a block with local names. -/
inductive Scope where
  | top
  | inner (names : Names)

def Scope.names : Scope → Names
  | top => {}
  | inner names => names

namespace Eval

def fail (cause : RuntimeCause) (l : Lexeme) : Eval α := throw (.error ⟨cause, l.line⟩)

/-- The result of an operator written at `l`. -/
def orFail (l : Lexeme) : Except RuntimeCause (Value Names) → Eval (Value Names)
  | .ok v => return v
  | .error cause => fail cause l

/-- A new location that holds a value. -/
def newCell (value : Value Names) : Eval Location := fun m =>
  .ok m.cells.size { m with cells := m.cells.push value }

/-- Writes a name at its location if it is local, else among the globals. -/
def put (names : Names) (name : String) (value : Value Names) : Eval Unit := fun m =>
  match names.get? name with
  | some location => .ok () { m with cells := m.cells.setIfInBounds location value }
  | none => .ok () { m with globals := m.globals.insert name value }

/-- The scope behind a declaration, which has a location of its own unless it is global. -/
def declare (scope : Scope) (name : String) (value : Value Names) : Eval Scope :=
  match scope with
  | .top => do
    put {} name value
    return .top
  | .inner names => do
    let location ← newCell value
    return .inner (names.insert name location)

def declareEach (scope : Scope) : List (String × Value Names) → Eval Scope
  | [] => return scope
  | (name, value) :: rest => do declareEach (← declare scope name value) rest

def readName (names : Names) (name : Lexeme) : Eval (Value Names) := do
  match (← get).value? names name.text with
  | some v => return v
  | none => fail (.undefinedVariable name.text) name

/-- Writes a name, which has to have a value already. -/
def writeName (names : Names) (name : Lexeme) (value : Value Names) : Eval Unit := do
  let _ ← readName names name
  put names name.text value

def newObject (origin : Class Names) : Eval ObjectId := fun m =>
  .ok m.objects.size { m with objects := m.objects.push { origin } }

def setField (object : ObjectId) (name : String) (value : Value Names) : Eval Unit := fun m =>
  .ok () { m with
    objects := m.objects.modify object fun o => { o with fields := o.fields.insert name value } }

/-- A method of an object: the method's map is extended with `this`. -/
def bindMethod (method : Closure Names) (object : ObjectId) : Eval (Closure Names) := do
  let scope ← declare (.inner method.scope) thisName (.object object)
  return { method with scope := scope.names }

/-- A field of an object, else a method of its class bound to it. -/
def readProperty (object : ObjectId) (name : Lexeme) : Eval (Value Names) := do
  let m ← get
  match (m.objects[object]?).bind (·.fields.get? name.text) with
  | some v => return v
  | none =>
    match (m.objects[object]?).bind (·.origin.method? name.text) with
    | some method => return .callable (.function (← bindMethod method object))
    | none => fail (.undefinedProperty name.text) name

def readClock : Eval Float := fun m =>
  .ok (m.clock.reading m.clock.ticks)
    { m with clock := { m.clock with ticks := m.clock.ticks + 1 } }

def print (value : Value Names) : Eval Unit := fun m =>
  let bytes := (value.text m.objects ++ "\n").toUTF8
  let fits := m.sink.room bytes.size = bytes.size
  let m := { m with sink := m.sink.write bytes }
  if fits then .ok () m else .error (.output (.full m.sink.fullText)) m

def flush : Eval Unit := fun m =>
  if m.sink.flushable then .ok () m else .error (.output (.flushRefused m.sink.flushText)) m

end Eval
end ScopeScript.Lexical
