/-! Tables from names to values, each name at most once. -/
namespace ScopeScript

structure Table (α : Type) where
  entries : List (String × α) := []

namespace Table
variable {α : Type}

/-- Replaces the entry of a name, or adds one at the end. -/
def insertIn (name : String) (value : α) : List (String × α) → List (String × α)
  | [] => [(name, value)]
  | (other, old) :: rest =>
    if other = name then (name, value) :: rest else (other, old) :: insertIn name value rest

def findIn (name : String) : List (String × α) → Option α
  | [] => none
  | (other, value) :: rest => if other = name then some value else findIn name rest

def insert (t : Table α) (name : String) (value : α) : Table α := ⟨insertIn name value t.entries⟩

def get? (t : Table α) (name : String) : Option α := findIn name t.entries

def contains (t : Table α) (name : String) : Bool := (t.get? name).isSome

def names (t : Table α) : List String := t.entries.map Prod.fst

/-- The names in the order of their characters. -/
def sortedNames (t : Table α) : List String := t.names.mergeSort fun a b => a ≤ b

/-- Entries added one after the other, a later one for a name replacing an earlier one. -/
def ofList (entries : List (String × α)) : Table α :=
  entries.foldl (fun t (name, value) => t.insert name value) {}

theorem get?_insert (t : Table α) (name other : String) (value : α) :
    (t.insert name value).get? other = if name = other then some value else t.get? other := by
  obtain ⟨entries⟩ := t
  simp only [insert, get?]
  induction entries with
  | nil => simp [insertIn, findIn]
  | cons entry rest ih => grind [insertIn, findIn]

theorem names_insert (t : Table α) (name : String) (value : α) :
    (t.insert name value).names = if name ∈ t.names then t.names else t.names ++ [name] := by
  obtain ⟨entries⟩ := t
  simp only [insert, names]
  induction entries with
  | nil => simp [insertIn]
  | cons entry rest ih => grind [insertIn]

theorem mem_names_iff (t : Table α) (name : String) :
    name ∈ t.names ↔ (t.get? name).isSome = true := by
  obtain ⟨entries⟩ := t
  simp only [get?, names]
  induction entries with
  | nil => simp [findIn]
  | cons entry rest ih => grind [findIn]

theorem insert_insert (t : Table α) (name : String) (first second : α) :
    (t.insert name first).insert name second = t.insert name second := by
  obtain ⟨entries⟩ := t
  simp only [insert, mk.injEq]
  induction entries with
  | nil => simp [insertIn]
  | cons entry rest ih => grind [insertIn]

end Table
end ScopeScript
