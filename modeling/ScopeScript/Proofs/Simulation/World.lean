import ScopeScript.Proofs.History
import ScopeScript.Proofs.Lexical.State
import ScopeScript.Proofs.Scope.Scoped

/-! How frames and locations correspond. A world says which location stands for which name of
which frame; it only ever grows. Frames go on growing after a closure kept one of them, so
what a closure can see is told by the static scopes of its code and not by the frame alone. -/
namespace ScopeScript
open Lexical (Location Names Scope)

/-- The frames made so far with the frames around them, the location that stands for a name of
a local frame, the global names, the distances noted, and where printed text goes. -/
structure World where
  size : Nat
  parent : FrameId → Option FrameId
  place : FrameId → String → Option Location
  globals : List String
  notes : Notes
  sink : Sink
  size_pos : 0 < size
  parent_global : parent globalFrame = none
  place_global : ∀ x, place globalFrame x = none
  place_lt : ∀ f x l, place f x = some l → f < size
  place_inj : ∀ f g x y l, place f x = some l → place g y = some l → f = g ∧ x = y

namespace World

/-- What may change while code runs. Names are declared in the frame `opened` only. -/
structure Grows (opened : Option FrameId) (before after : World) : Prop where
  size : before.size ≤ after.size
  parent : ∀ f < before.size, after.parent f = before.parent f
  place : ∀ f x l, before.place f x = some l → after.place f x = some l
  kept : ∀ f < before.size, opened ≠ some f → ∀ x, after.place f x = before.place f x
  globals : opened ≠ some globalFrame → after.globals = before.globals
  limit : before.notes.limit ≤ after.notes.limit
  notes : ∀ id < before.notes.limit,
    after.notes.distances.get? id = before.notes.distances.get? id
  sink : after.sink.Extends before.sink

variable {w w' w'' : World} {opened : Option FrameId}

theorem Grows.refl (w : World) (opened : Option FrameId) : w.Grows opened w where
  size := Nat.le_refl _
  parent _ _ := rfl
  place _ _ _ h := h
  kept _ _ _ _ := rfl
  globals _ := rfl
  limit := Nat.le_refl _
  notes _ _ := rfl
  sink := .refl _

theorem Grows.trans (first : w.Grows opened w') (second : w'.Grows opened w'') :
    w.Grows opened w'' where
  size := Nat.le_trans first.size second.size
  parent f inside :=
    (second.parent f (Nat.lt_of_lt_of_le inside first.size)).trans (first.parent f inside)
  place f x l h := second.place f x l (first.place f x l h)
  kept f inside other x :=
    (second.kept f (Nat.lt_of_lt_of_le inside first.size) other x).trans
      (first.kept f inside other x)
  globals other := (second.globals other).trans (first.globals other)
  limit := Nat.le_trans first.limit second.limit
  notes id below :=
    (second.notes id (Nat.lt_of_lt_of_le below first.limit)).trans (first.notes id below)
  sink := first.sink.trans second.sink

theorem Grows.widen (grown : w.Grows none w') : w.Grows opened w' where
  size := grown.size
  parent := grown.parent
  place := grown.place
  kept f inside _ := grown.kept f inside nofun
  globals _ := grown.globals nofun
  limit := grown.limit
  notes := grown.notes
  sink := grown.sink

/-- Declarations in a frame that was not there before leave all frames as they were. -/
theorem Grows.trans_fresh {f : FrameId} (first : w.Grows none w') (fresh : w.size ≤ f)
    (second : w'.Grows (some f) w'') : w.Grows none w'' where
  size := Nat.le_trans first.size second.size
  parent g inside :=
    (second.parent g (Nat.lt_of_lt_of_le inside first.size)).trans (first.parent g inside)
  place g x l h := second.place g x l (first.place g x l h)
  kept g inside _ x := by
    have other : (some f : Option FrameId) ≠ some g := by
      rintro ⟨⟩
      omega
    exact (second.kept g (Nat.lt_of_lt_of_le inside first.size) other x).trans
      (first.kept g inside nofun x)
  globals _ := by
    have other : (some f : Option FrameId) ≠ some globalFrame := by
      rintro ⟨⟩
      exact absurd fresh (Nat.not_le_of_lt w.size_pos)
    exact (second.globals other).trans (first.globals nofun)
  limit := Nat.le_trans first.limit second.limit
  notes id below :=
    (second.notes id (Nat.lt_of_lt_of_le below first.limit)).trans (first.notes id below)
  sink := first.sink.trans second.sink

/-- The worlds that a run can reach, which notes nothing. -/
structure Reaches (opened : Option FrameId) (before after : World) : Prop where
  grows : before.Grows opened after
  notes : after.notes = before.notes

theorem Reaches.refl (w : World) (opened : Option FrameId) : w.Reaches opened w :=
  ⟨.refl w opened, rfl⟩

theorem Reaches.trans (first : w.Reaches opened w') (second : w'.Reaches opened w'') :
    w.Reaches opened w'' :=
  ⟨first.grows.trans second.grows, second.notes.trans first.notes⟩

/-- The world behind a declaration at the top level. -/
def withGlobals (w : World) (names : List String) : World := { w with globals := names }

theorem grows_withGlobals (w : World) (names : List String) :
    w.Grows (some globalFrame) (w.withGlobals names) where
  size := Nat.le_refl _
  parent _ _ := rfl
  place _ _ _ h := h
  kept _ _ _ _ := rfl
  globals other := absurd rfl other
  limit := Nat.le_refl _
  notes _ _ := rfl
  sink := .refl _

/-- The world with one frame more. -/
def withFrame (w : World) (enclosing : FrameId) : World where
  size := w.size + 1
  parent f := if f = w.size then some enclosing else w.parent f
  place := w.place
  globals := w.globals
  notes := w.notes
  sink := w.sink
  size_pos := Nat.succ_pos _
  parent_global := by
    have other : globalFrame ≠ w.size := Nat.ne_of_lt w.size_pos
    rw [if_neg other, w.parent_global]
  place_global := w.place_global
  place_lt f x l located := Nat.lt_succ_of_lt (w.place_lt f x l located)
  place_inj := w.place_inj

theorem grows_withFrame (w : World) (enclosing : FrameId) :
    w.Grows none (w.withFrame enclosing) where
  size := Nat.le_succ _
  parent _ inside := if_neg (Nat.ne_of_lt inside)
  place _ _ _ h := h
  kept _ _ _ _ := rfl
  globals _ := rfl
  limit := Nat.le_refl _
  notes _ _ := rfl
  sink := .refl _

/-- The world behind a declaration in a local frame, at a location that was not in use. -/
def withPlace (w : World) (f : FrameId) (x : String) (l : Location) (inside : f < w.size)
    (inner : f ≠ globalFrame) (unused : ∀ g y, w.place g y ≠ some l) : World where
  size := w.size
  parent := w.parent
  place g y := if g = f ∧ y = x then some l else w.place g y
  globals := w.globals
  notes := w.notes
  sink := w.sink
  size_pos := w.size_pos
  parent_global := w.parent_global
  place_global y := by
    rw [if_neg fun h => inner h.1.symm, w.place_global]
  place_lt g y k located := by
    split at located
    · next h => exact h.1 ▸ inside
    · exact w.place_lt g y k located
  place_inj g h y z k first second := by
    split at first
    · next here =>
      split at second
      · next there => exact ⟨here.1.trans there.1.symm, here.2.trans there.2.symm⟩
      · cases first
        exact absurd second (unused h z)
    · split at second
      · cases second
        exact absurd first (unused g y)
      · exact w.place_inj g h y z k first second

theorem grows_withPlace {f : FrameId} {x : String} {l : Location} (inside : f < w.size)
    (inner : f ≠ globalFrame) (unused : ∀ g y, w.place g y ≠ some l)
    (absent : w.place f x = none) : w.Grows (some f) (w.withPlace f x l inside inner unused) where
  size := Nat.le_refl _
  parent _ _ := rfl
  place g y k located := by
    have other : ¬(g = f ∧ y = x) := by
      rintro ⟨rfl, rfl⟩
      rw [absent] at located
      contradiction
    exact (if_neg other).trans located
  kept g _ other y := if_neg fun (h : g = f ∧ y = x) => other (h.1 ▸ rfl)
  globals _ := rfl
  limit := Nat.le_refl _
  notes _ _ := rfl
  sink := .refl _

/-- The world with other notes. -/
def withNotes (w : World) (notes : Notes) : World := { w with notes }

theorem grows_withNotes {notes : Notes} (later : notes.Extends w.notes) :
    w.Grows none (w.withNotes notes) where
  size := Nat.le_refl _
  parent _ _ := rfl
  place _ _ _ h := h
  kept _ _ _ _ := rfl
  globals _ := rfl
  limit := later.limit
  notes := later.same
  sink := .refl _

/-- The world behind some output. -/
def withSink (w : World) (sink : Sink) : World := { w with sink }

theorem grows_withSink {sink : Sink} (later : sink.Extends w.sink) :
    w.Grows opened (w.withSink sink) where
  size := Nat.le_refl _
  parent _ _ := rfl
  place _ _ _ h := h
  kept _ _ _ _ := rfl
  globals _ := rfl
  limit := Nat.le_refl _
  notes _ _ := rfl
  sink := later

/-- A frame whose chain fits the static scopes: one frame a scope with at least its names, and
the global frame behind the last. -/
def Chain (w : World) : List (List String) → FrameId → Prop
  | [], f => f = globalFrame
  | names :: outer, f => f < w.size ∧ (∀ x ∈ names, ∃ l, w.place f x = some l) ∧
    ∃ g, w.parent f = some g ∧ w.Chain outer g

/-- The location that a name stands for in code with these static scopes. -/
def locate (w : World) : List (List String) → FrameId → String → Option Location
  | [], _, _ => none
  | names :: outer, f, x =>
    if names.contains x then w.place f x else (w.parent f).bind fun g => w.locate outer g x

/-- Code with these static scopes sees the same locals in a frame and in a map. -/
structure Linked (w : World) (locals : List (List String)) (f : FrameId) (names : Names) :
    Prop where
  chain : w.Chain locals f
  locate : ∀ x, names.get? x = w.locate locals f x

theorem Chain.mono {locals : List (List String)} {f : FrameId} (chain : w.Chain locals f)
    (grown : w.Grows opened w') : w'.Chain locals f := by
  induction locals generalizing f with
  | nil => exact chain
  | cons names outer ih =>
    obtain ⟨inside, bound, g, parent, rest⟩ := chain
    refine ⟨Nat.lt_of_lt_of_le inside grown.size, fun x member => ?_, g, ?_, ih rest⟩
    · obtain ⟨l, located⟩ := bound x member
      exact ⟨l, grown.place f x l located⟩
    · rw [grown.parent f inside, parent]

theorem Chain.locate_eq {locals : List (List String)} {f : FrameId} (chain : w.Chain locals f)
    (grown : w.Grows opened w') (x : String) : w'.locate locals f x = w.locate locals f x := by
  induction locals generalizing f with
  | nil => rfl
  | cons names outer ih =>
    obtain ⟨inside, bound, g, parent, rest⟩ := chain
    simp only [World.locate, grown.parent f inside, parent, Option.bind_some]
    split
    · next member =>
      obtain ⟨l, located⟩ := bound x (List.contains_iff_mem.mp member)
      rw [located, grown.place f x l located]
    · exact ih rest

theorem Linked.mono {locals : List (List String)} {f : FrameId} {names : Names}
    (linked : w.Linked locals f names) (grown : w.Grows opened w') :
    w'.Linked locals f names :=
  ⟨linked.chain.mono grown,
    fun x => (linked.locate x).trans (linked.chain.locate_eq grown x).symm⟩

/-- Code that runs now, in the frame or at the top level: its scopes are exactly what its frame
binds. -/
inductive Current (w : World) : Scopes → FrameId → Scope → Prop where
  | top {globals : List String} : (∀ x, x ∈ w.globals ↔ x ∈ globals) →
      w.Current ⟨[], globals⟩ globalFrame .top
  | inner {scope : List String} {outer : List (List String)} {globals : List String}
      {f : FrameId} {names : Names} : w.Linked (scope :: outer) f names →
      (∀ x l, w.place f x = some l → x ∈ scope) →
      w.Current ⟨scope :: outer, globals⟩ f (.inner names)

theorem Current.linked {s : Scopes} {f : FrameId} {scope : Scope} (current : w.Current s f scope) :
    w.Linked s.locals f scope.names := by
  cases current with
  | top => exact ⟨rfl, fun _ => rfl⟩
  | inner linked => exact linked

theorem Current.lt_size {s : Scopes} {f : FrameId} {scope : Scope}
    (current : w.Current s f scope) : f < w.size := by
  cases current with
  | top => exact w.size_pos
  | inner linked => exact linked.chain.1

theorem Current.mono {s : Scopes} {f : FrameId} {scope : Scope} (current : w.Current s f scope)
    (grown : w.Grows none w') : w'.Current s f scope := by
  have inside := current.lt_size
  cases current with
  | top same => exact .top (by rwa [grown.globals nofun])
  | inner linked owned =>
    refine .inner (linked.mono grown) fun x l located => owned x l ?_
    rwa [grown.kept f inside nofun] at located

end World
end ScopeScript
