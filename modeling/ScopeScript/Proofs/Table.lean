import Mathlib.Data.List.Forall2
import ScopeScript.Table

/-! Tables whose values are changed one by one, and tables with the same names in the same order
and related values. -/
namespace ScopeScript.Table
variable {α β : Type} {R : α → β → Prop}

def map (f : α → β) (t : Table α) : Table β := ⟨t.entries.map fun e => (e.1, f e.2)⟩

@[simp] theorem names_map (f : α → β) (t : Table α) : (t.map f).names = t.names := by
  simp [map, names, Function.comp_def]

@[simp] theorem get?_map (f : α → β) (t : Table α) (name : String) :
    (t.map f).get? name = (t.get? name).map f := by
  obtain ⟨entries⟩ := t
  simp only [map, get?]
  induction entries with
  | nil => rfl
  | cons entry rest ih =>
    simp only [List.map_cons, findIn, ih]
    split <;> rfl

theorem map_insert (f : α → β) (t : Table α) (name : String) (value : α) :
    (t.insert name value).map f = (t.map f).insert name (f value) := by
  obtain ⟨entries⟩ := t
  simp only [map, insert, mk.injEq]
  induction entries with
  | nil => rfl
  | cons entry rest ih =>
    simp only [insertIn, List.map_cons]
    split
    · rfl
    · rw [List.map_cons, ih]

theorem map_ofList (f : α → β) (entries : List (String × α)) :
    (ofList entries).map f = ofList (entries.map fun e => (e.1, f e.2)) := by
  suffices ∀ t : Table α, (entries.foldl (fun t e => t.insert e.1 e.2) t).map f =
      (entries.map fun e => (e.1, f e.2)).foldl (fun t e => t.insert e.1 e.2) (t.map f) from this {}
  induction entries with
  | nil => exact fun _ => rfl
  | cons entry rest ih =>
    intro t
    rw [List.foldl_cons, ih, map_insert, List.map_cons, List.foldl_cons]

theorem map_map {γ : Type} (g : β → γ) (f : α → β) (t : Table α) :
    (t.map f).map g = t.map (g ∘ f) := by
  simp [map, Function.comp_def]

theorem map_id (t : Table α) : t.map id = t := by simp [map]

def Rel (R : α → β → Prop) (t : Table α) (u : Table β) : Prop :=
  List.Forall₂ (fun a b => a.1 = b.1 ∧ R a.2 b.2) t.entries u.entries

theorem Rel.names_eq {t : Table α} {u : Table β} (rel : Rel R t u) : t.names = u.names := by
  obtain ⟨entries⟩ := t
  obtain ⟨others⟩ := u
  simp only [Rel] at rel
  simp only [names]
  induction rel with
  | nil => rfl
  | cons head _ ih => simp [head.1, ih]

theorem Rel.get? {t : Table α} {u : Table β} (rel : Rel R t u) (name : String) :
    Option.Rel R (t.get? name) (u.get? name) := by
  obtain ⟨entries⟩ := t
  obtain ⟨others⟩ := u
  simp only [Rel] at rel
  simp only [Table.get?]
  induction rel with
  | nil => exact .none
  | cons head _ ih =>
    obtain ⟨same, related⟩ := head
    simp only [findIn, same]
    split
    · exact .some related
    · exact ih

theorem Rel.get?_cases {t : Table α} {u : Table β} (rel : Rel R t u) (name : String) :
    (t.get? name = none ∧ u.get? name = none) ∨
      ∃ a b, t.get? name = some a ∧ u.get? name = some b ∧ R a b := by
  have here := rel.get? name
  generalize t.get? name = left at here
  generalize u.get? name = right at here
  cases here with
  | none => exact .inl ⟨rfl, rfl⟩
  | some related => exact .inr ⟨_, _, rfl, rfl, related⟩

theorem Rel.insert {t : Table α} {u : Table β} (rel : Rel R t u) (name : String) {a : α} {b : β}
    (related : R a b) : Rel R (t.insert name a) (u.insert name b) := by
  obtain ⟨entries⟩ := t
  obtain ⟨others⟩ := u
  simp only [Rel] at rel
  simp only [Table.insert, Rel]
  induction rel with
  | nil => exact .cons ⟨rfl, related⟩ .nil
  | cons head tail ih =>
    obtain ⟨same, held⟩ := head
    simp only [insertIn, same]
    split
    · exact .cons ⟨rfl, related⟩ tail
    · exact .cons ⟨rfl, held⟩ ih

theorem Rel.empty : Rel R ({} : Table α) ({} : Table β) := .nil

theorem Rel.ofList {entries : List (String × α)} {others : List (String × β)}
    (rel : List.Forall₂ (fun a b => a.1 = b.1 ∧ R a.2 b.2) entries others) :
    Rel R (.ofList entries) (.ofList others) := by
  suffices ∀ {t : Table α} {u : Table β}, Rel R t u →
      Rel R (entries.foldl (fun t e => t.insert e.1 e.2) t)
        (others.foldl (fun t e => t.insert e.1 e.2) u) from this .empty
  induction rel with
  | nil => exact fun rel => rel
  | cons head _ ih =>
    intro t u rel
    obtain ⟨same, related⟩ := head
    rw [List.foldl_cons, List.foldl_cons, same]
    exact ih (rel.insert _ related)

theorem Rel.mono {S : α → β → Prop} {t : Table α} {u : Table β} (rel : Rel R t u)
    (weaker : ∀ a b, R a b → S a b) : Rel S t u :=
  List.Forall₂.imp (fun a b h => ⟨h.1, weaker a.2 b.2 h.2⟩) rel

theorem Rel.map {γ δ : Type} {S : γ → δ → Prop} {f : α → γ} {g : β → δ} {t : Table α} {u : Table β}
    (rel : Rel R t u) (related : ∀ a b, R a b → S (f a) (g b)) : Rel S (t.map f) (u.map g) := by
  simp only [Rel, Table.map, List.forall₂_map_left_iff, List.forall₂_map_right_iff]
  exact List.Forall₂.imp (fun a b h => ⟨h.1, related a.2 b.2 h.2⟩) rel

end ScopeScript.Table
