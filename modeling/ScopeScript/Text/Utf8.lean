/-! Reading UTF-8. The first byte of a character fixes how many bytes follow and
which values the second may take; bytes are refused at the first one that no
character can continue with. -/
namespace ScopeScript.Utf8

/-- A character begun: the bytes read so far carry `value`, `owed` more are to come and
the next of them lies between `low` and `high`. -/
structure Begun where
  value : Nat
  length : Nat
  owed : Nat
  low : Nat
  high : Nat

/-- What a byte does between characters: it is a character of its own, begins one, or
neither. -/
inductive Opening where
  | ascii (c : Char)
  | begun (state : Begun)
  | refused

def opening (byte : UInt8) : Opening :=
  let b := byte.toNat
  if b < 0x80 then .ascii (Char.ofNat b)
  else if b < 0xC2 then .refused
  else if b < 0xE0 then .begun ⟨b - 0xC0, 1, 1, 0x80, 0xBF⟩
  else if b = 0xE0 then .begun ⟨0x0, 1, 2, 0xA0, 0xBF⟩
  else if b = 0xED then .begun ⟨0xD, 1, 2, 0x80, 0x9F⟩
  else if b < 0xF0 then .begun ⟨b - 0xE0, 1, 2, 0x80, 0xBF⟩
  else if b = 0xF0 then .begun ⟨0x0, 1, 3, 0x90, 0xBF⟩
  else if b < 0xF4 then .begun ⟨b - 0xF0, 1, 3, 0x80, 0xBF⟩
  else if b = 0xF4 then .begun ⟨0x4, 1, 3, 0x80, 0x8F⟩
  else .refused

/-- The state after one more byte, if the character can go on with it. -/
def Begun.next? (s : Begun) (byte : UInt8) : Option Begun :=
  if s.low ≤ byte.toNat ∧ byte.toNat ≤ s.high then
    some ⟨s.value * 64 + (byte.toNat - 0x80), s.length + 1, s.owed - 1, 0x80, 0xBF⟩
  else none

/-- Why bytes are not text. `index` counts the bytes of the whole characters before. -/
inductive Malformed where
  | invalid (index length : Nat)
  | incomplete (index : Nat)
  deriving DecidableEq, Repr

def Malformed.message : Malformed → String
  | .invalid index length => s!"invalid utf-8 sequence of {length} bytes from index {index}"
  | .incomplete index => s!"incomplete utf-8 byte sequence from index {index}"

/-- The whole characters at the front of some bytes, and what stopped the reading. -/
structure Reading where
  chars : List Char
  stop : Option Malformed

def Reading.before (c : Char) (r : Reading) : Reading := { r with chars := c :: r.chars }

/-- Reads on inside a character or between two of them; `index` bytes are behind it. -/
def readFrom (index : Nat) : Option Begun → List UInt8 → Reading
  | none, [] => ⟨[], none⟩
  | some _, [] => ⟨[], some (.incomplete index)⟩
  | none, byte :: rest =>
    match opening byte with
    | .ascii c => (readFrom (index + 1) none rest).before c
    | .begun s => readFrom index (some s) rest
    | .refused => ⟨[], some (.invalid index 1)⟩
  | some s, byte :: rest =>
    match s.next? byte with
    | none => ⟨[], some (.invalid index s.length)⟩
    | some t =>
      if t.owed = 0 then (readFrom (index + t.length) none rest).before (Char.ofNat t.value)
      else readFrom index (some t) rest

def read (bytes : List UInt8) : Reading := readFrom 0 none bytes

/-- The text that the bytes encode. -/
def decode (bytes : List UInt8) : Except Malformed String :=
  match read bytes with
  | ⟨chars, none⟩ => .ok (String.ofList chars)
  | ⟨_, some stop⟩ => .error stop

/-- The text at the front of the bytes; a replacement character marks where it breaks off. -/
def shown (bytes : List UInt8) : String :=
  match read bytes with
  | ⟨chars, none⟩ => String.ofList chars
  | ⟨chars, some _⟩ => String.ofList (chars ++ ['\ufffd'])

end ScopeScript.Utf8
