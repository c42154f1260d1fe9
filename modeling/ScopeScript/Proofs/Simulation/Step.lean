import ScopeScript.Proofs.Simulation.Relation

/-! Steps of the two machines side by side. Every step of the machine with frames answers as
the lexical step does, never faults, and leaves machines that are the same again. -/
namespace ScopeScript
open Lexical (Location Names Scope)

variable {α β γ δ : Type} {w w' : World} {opened : Option FrameId}

/-- Two results that are the same to a program. Values are related by `R`. -/
def Meets (opened : Option FrameId) (w : World) (R : World → α → β → Prop) :
    EStateM.Result Stop Machine α → EStateM.Result Stop Lexical.Machine β → Prop
  | .ok a m, .ok b l => ∃ w', w.Reaches opened w' ∧ w'.Mirrors m l ∧ R w' a b
  | .error stop m, .error other l => stop = other ∧ (∀ fault, stop ≠ .fault fault) ∧
    ∃ w', w.Reaches opened w' ∧ w'.Mirrors m l
  | _, _ => False

/-- Two steps that do the same on machines that are the same. Only names of the frame
`opened` may be declared on the way. -/
def Sim (opened : Option FrameId) (w : World) (R : World → α → β → Prop) (a : Eval α)
    (b : Lexical.Eval β) : Prop :=
  ∀ m l, w.Mirrors m l → Meets opened w R (a m) (b l)

/-- Results that are the same seen from a later world are the same seen from an earlier one. -/
theorem Meets.imp {opened' : Option FrameId} {w₀ : World} {R R' : World → α → β → Prop}
    {p : EStateM.Result Stop Machine α} {q : EStateM.Result Stop Lexical.Machine β}
    (meets : Meets opened w R p q) (back : ∀ w', w.Reaches opened w' → w₀.Reaches opened' w')
    (weaker : ∀ w' x y, w.Grows opened w' → R w' x y → R' w' x y) : Meets opened' w₀ R' p q := by
  cases p with
  | ok x m =>
    cases q with
    | ok y l =>
      obtain ⟨w', reached, mirrors, related⟩ := meets
      exact ⟨w', back w' reached, mirrors, weaker w' x y reached.grows related⟩
    | error _ _ => exact meets
  | error stop m =>
    cases q with
    | ok _ _ => exact meets
    | error other l =>
      obtain ⟨same, noFault, w', reached, mirrors⟩ := meets
      exact ⟨same, noFault, w', back w' reached, mirrors⟩

namespace Sim
variable {R : World → α → β → Prop} {S : World → γ → δ → Prop}

theorem pure {a : α} {b : β} (related : R w a b) : Sim opened w R (Pure.pure a) (Pure.pure b) :=
  fun _ _ mirrors => ⟨w, .refl w opened, mirrors, related⟩

theorem throw {stop : Stop} (noFault : ∀ fault, stop ≠ .fault fault) :
    Sim opened w R (MonadExcept.throw stop) (MonadExcept.throw stop) :=
  fun _ _ mirrors => ⟨rfl, noFault, w, .refl w opened, mirrors⟩

theorem bind {a : Eval α} {b : Lexical.Eval β} {f : α → Eval γ} {g : β → Lexical.Eval δ}
    (first : Sim opened w R a b)
    (next : ∀ w' x y, w.Grows opened w' → R w' x y → Sim opened w' S (f x) (g y)) :
    Sim opened w S (a >>= f) (b >>= g) := by
  intro m l mirrors
  have here := first m l mirrors
  simp only [Bind.bind, EStateM.bind]
  cases left : a m with
  | error stop m' =>
    cases right : b l with
    | ok y l' => simp [left, right, Meets] at here
    | error other l' =>
      simp only [left, right, Meets] at here
      exact here
  | ok x m' =>
    cases right : b l with
    | error other l' => simp [left, right, Meets] at here
    | ok y l' =>
      simp only [left, right, Meets] at here
      obtain ⟨w', reached, mirrors', related⟩ := here
      exact (next w' x y reached.grows related m' l' mirrors').imp
        (fun _ later => reached.trans later) fun _ _ _ _ related => related

/-- Steps that look at the machine first. -/
theorem get {f : Machine → Eval γ} {g : Lexical.Machine → Lexical.Eval δ}
    (next : ∀ m l, w.Mirrors m l → Meets opened w S (f m m) (g l l)) :
    Sim opened w S (MonadState.get >>= f) (MonadState.get >>= g) :=
  next

theorem imp {R' : World → α → β → Prop} {a : Eval α} {b : Lexical.Eval β}
    (sim : Sim opened w R a b) (weaker : ∀ w' x y, w.Grows opened w' → R w' x y → R' w' x y) :
    Sim opened w R' a b :=
  fun m l mirrors => (sim m l mirrors).imp (fun _ reached => reached) weaker

/-- A step that declares nothing declares nothing in any frame. -/
theorem widen {a : Eval α} {b : Lexical.Eval β} (sim : Sim none w R a b) :
    Sim opened w R a b :=
  fun m l mirrors => (sim m l mirrors).imp
    (fun _ reached => ⟨reached.grows.widen, reached.notes⟩) fun _ _ _ _ h => h

end Sim

end ScopeScript
