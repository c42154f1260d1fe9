import ScopeScript.Proofs.Simulation.Step

/-! Reading, writing and declaring names on the two machines. -/
namespace ScopeScript
open Lexical (Location Names Scope)

variable {w w' : World} {opened : Option FrameId} {m : Machine} {l : Lexical.Machine}

namespace World

/-- A name that is found a fixed number of scopes out has a location, and the frame that many
links out binds it. -/
theorem Chain.ancestor {locals : List (List String)} {globals : List String} {f : FrameId}
    {x : String} {distance : Nat} (chain : w.Chain locals f) (mirrors : w.Mirrors m l)
    (found : Scopes.distance? ⟨locals, globals⟩ x = some distance) :
    ∃ g location, m.store.ancestor distance f = .ok g ∧ w.locate locals f x = some location ∧
      w.place g x = some location := by
  induction locals generalizing f distance with
  | nil => simp [Scopes.distance?] at found
  | cons names outer ih =>
    obtain ⟨inside, bound, g, parent, rest⟩ := chain
    simp only [Scopes.distance?, List.findIdx?_cons] at found
    simp only [World.locate]
    split at found
    · next member =>
      cases found
      obtain ⟨location, located⟩ := bound x (List.contains_iff_mem.mp member)
      exact ⟨f, location, rfl, by simp only [member, if_true, located], located⟩
    · next absent =>
      obtain ⟨further, farther, rfl⟩ := Option.map_eq_some_iff.mp found
      obtain ⟨h, location, ancestor, locate, located⟩ := ih rest farther
      refine ⟨h, location, ?_, ?_, located⟩
      · simp only [Store.ancestor, mirrors.parent f, parent, ancestor]
      · rw [if_neg absent, parent]
        exact locate

theorem Chain.locate_eq_none {locals : List (List String)} {globals : List String} {f : FrameId}
    {x : String} (chain : w.Chain locals f)
    (global : Scopes.distance? ⟨locals, globals⟩ x = none) : w.locate locals f x = none := by
  induction locals generalizing f with
  | nil => rfl
  | cons names outer ih =>
    obtain ⟨inside, bound, g, parent, rest⟩ := chain
    simp only [Scopes.distance?, List.findIdx?_cons] at global
    split at global
    · contradiction
    · next absent =>
      rw [World.locate, if_neg absent, parent]
      exact ih rest (Option.map_eq_none_iff.mp global)

/-- A frame with local names is not the global one. -/
theorem Chain.ne_global {names : List String} {outer : List (List String)} {f : FrameId}
    (chain : w.Chain (names :: outer) f) : f ≠ globalFrame := by
  rintro rfl
  obtain ⟨_, _, g, parent, _⟩ := chain
  rw [w.parent_global] at parent
  contradiction

namespace Mirrors

theorem enclosing_global (mirrors : w.Mirrors m l) :
    (m.store.frame globalFrame).enclosing = none :=
  (mirrors.parent globalFrame).trans w.parent_global

theorem nonempty (mirrors : w.Mirrors m l) : 0 < m.store.frames.size :=
  mirrors.size ▸ w.size_pos

theorem get?_global (mirrors : w.Mirrors m l) (x : String) :
    m.store.get? globalFrame x = (m.store.frame globalFrame).bindings.get? x :=
  m.store.get?_eq_of_enclosing_eq_none mirrors.enclosing_global mirrors.nonempty x

theorem owner?_global (mirrors : w.Mirrors m l) (x : String) :
    m.store.owner? globalFrame x =
      if m.store.binds globalFrame x then some globalFrame else none :=
  m.store.owner?_eq_of_enclosing_eq_none mirrors.enclosing_global mirrors.nonempty x

theorem lt_cells (mirrors : w.Mirrors m l) {f : FrameId} {x : String} {location : Location}
    (located : w.place f x = some location) : location < l.cells.size := by
  obtain ⟨_, _, _, held, _⟩ := mirrors.cell f x location located
  exact (Array.getElem?_eq_some_iff.mp held).1

theorem unused (mirrors : w.Mirrors m l) (f : FrameId) (x : String) :
    w.place f x ≠ some l.cells.size :=
  fun located => absurd (mirrors.lt_cells located) (Nat.lt_irrefl _)

/-- A name that is bound in a local frame has a location, also behind a write. -/
theorem placed_define (mirrors : w.Mirrors m l) {f : FrameId} {x : String} {v : Value}
    (inside : f < m.store.frames.size)
    (kept : ∀ g y location, w.place g y = some location → w'.place g y = some location)
    (here : f ≠ globalFrame → ∃ location, w'.place f x = some location) (g : FrameId) (y : String)
    (u : Value) (inner : g ≠ globalFrame)
    (bound : ((m.store.define f x v).frame g).bindings.get? y = some u) :
    ∃ location, w'.place g y = some location := by
  have before (old : (m.store.frame g).bindings.get? y = some u) :
      ∃ location, w'.place g y = some location :=
    (mirrors.placed g y u inner old).imp fun location => kept g y location
  rw [Store.frame_define _ inside] at bound
  split at bound
  · next same =>
    subst same
    rw [Table.get?_insert] at bound
    split at bound
    · next same =>
      subst same
      exact here inner
    · exact before bound
  · exact before bound

/-- Writing a name at its frame and at its location. -/
theorem write_local (mirrors : w.Mirrors m l) {f : FrameId} {x : String} {location : Location}
    (located : w.place f x = some location) {v : Value} {u : Value Names} (same : Same w v u) :
    w.Mirrors { m with store := m.store.define f x v }
      { l with cells := l.cells.setIfInBounds location u } := by
  have inside : f < m.store.frames.size := mirrors.size ▸ w.place_lt f x location located
  have inner : f ≠ globalFrame := by
    rintro rfl
    rw [w.place_global] at located
    contradiction
  have bound : location < l.cells.size := mirrors.lt_cells located
  refine { mirrors with
    size := ?_, parent := ?_, cell := ?_, globals := ?_
    placed := mirrors.placed_define inside (fun _ _ _ old => old) fun _ => ⟨location, located⟩ }
  · exact (Store.size_define _ _ _ _).trans mirrors.size
  · intro g
    rw [Store.frame_define _ inside]
    split
    · next h => exact h ▸ mirrors.parent f
    · exact mirrors.parent g
  · intro g y other held
    rw [Store.frame_define _ inside]
    by_cases here : location = other
    · subst here
      obtain ⟨rfl, rfl⟩ := w.place_inj f g x y location located held
      exact ⟨v, u, by simp [Table.get?_insert], by simp [bound], same⟩
    · obtain ⟨v', u', read, cell, same'⟩ := mirrors.cell g y other held
      refine ⟨v', u', ?_, ?_, same'⟩
      · split
        · next h =>
          subst h
          have different : x ≠ y := by
            rintro rfl
            exact here (Option.some.inj (located.symm.trans held))
          simpa [Table.get?_insert, different] using read
        · exact read
      · rwa [Array.getElem?_setIfInBounds_ne here]
  · rw [Store.frame_define _ inside, if_neg inner]
    exact mirrors.globals

/-- Writing a global name, which may be new. -/
theorem write_global (mirrors : w.Mirrors m l) (x : String) {v : Value} {u : Value Names}
    (same : Same w v u) :
    (w.withGlobals (l.globals.insert x u).names).Mirrors
      { m with store := m.store.define globalFrame x v }
      { l with globals := l.globals.insert x u } := by
  have grown := w.grows_withGlobals (l.globals.insert x u).names
  have inside : globalFrame < m.store.frames.size := mirrors.nonempty
  refine { mirrors with
    size := ?_, parent := ?_, cell := ?_, globals := ?_, names := rfl
    placed := mirrors.placed_define inside grown.place fun local' => absurd rfl local'
    objects := mirrors.objects_mono grown }
  · exact (Store.size_define _ _ _ _).trans mirrors.size
  · intro g
    rw [Store.frame_define _ inside]
    split
    · next h => exact h ▸ mirrors.parent globalFrame
    · exact mirrors.parent g
  · intro g y location located
    have inner : globalFrame ≠ g := by
      rintro rfl
      rw [World.withGlobals, w.place_global] at located
      contradiction
    rw [Store.frame_define _ inside, if_neg inner]
    exact mirrors.cell_mono grown located
  · rw [Store.frame_define _ inside, if_pos rfl]
    exact (mirrors.globals_mono grown).insert x (same.mono grown)

/-- A new local name in a frame, and a new location for it. -/
theorem declare_local (mirrors : w.Mirrors m l) {f : FrameId} {x : String} {v : Value}
    {u : Value Names} (inside : f < w.size) (inner : f ≠ globalFrame)
    (absent : w.place f x = none) (same : Same w v u) :
    (w.withPlace f x l.cells.size inside inner mirrors.unused).Mirrors
      { m with store := m.store.define f x v } { l with cells := l.cells.push u } := by
  have grown := grows_withPlace inside inner mirrors.unused absent
  have made : f < m.store.frames.size := mirrors.size ▸ inside
  refine { mirrors with
    size := ?_, parent := ?_, cell := ?_, globals := ?_
    placed := mirrors.placed_define made grown.place fun _ => ⟨l.cells.size, if_pos ⟨rfl, rfl⟩⟩
    objects := mirrors.objects_mono grown }
  · exact (Store.size_define _ _ _ _).trans mirrors.size
  · intro g
    rw [Store.frame_define _ made]
    split
    · next h => exact h ▸ mirrors.parent f
    · exact mirrors.parent g
  · intro g y location located
    rw [Store.frame_define _ made]
    simp only [withPlace] at located
    split at located
    · next here =>
      obtain ⟨rfl, rfl⟩ := here
      cases located
      exact ⟨v, u, by simp [Table.get?_insert], by simp, same.mono grown⟩
    · next other =>
      obtain ⟨v', u', bound, held, same'⟩ := mirrors.cell_mono grown located
      refine ⟨v', u', ?_, ?_, same'⟩
      · split
        · next h =>
          subst h
          have different : x ≠ y := fun h => other ⟨rfl, h.symm⟩
          simpa [Table.get?_insert, different] using bound
        · exact bound
      · have below := (Array.getElem?_eq_some_iff.mp held).1
        rwa [Array.getElem?_push, if_neg (Nat.ne_of_lt below)]
  · rw [Store.frame_define _ made, if_neg inner]
    exact mirrors.globals_mono grown

/-- A new frame inside one that is there. -/
theorem add_frame (mirrors : w.Mirrors m l) (enclosing : FrameId) :
    (w.withFrame enclosing).Mirrors
      { m with store := m.store.add { enclosing := some enclosing } } l := by
  have grown := w.grows_withFrame enclosing
  refine { mirrors with
    size := ?_, parent := ?_, cell := ?_, globals := ?_, placed := ?_
    objects := mirrors.objects_mono grown }
  · simpa [withFrame] using mirrors.size
  · intro g
    rw [Store.frame_add, Store.nextFrame, mirrors.size]
    simp only [withFrame]
    split
    · rfl
    · exact mirrors.parent g
  · intro g y location located
    have before : g < w.size := w.place_lt g y location located
    have old : g ≠ m.store.nextFrame := Nat.ne_of_lt (Nat.lt_of_lt_of_eq before mirrors.size.symm)
    rw [Store.frame_add, if_neg old]
    exact mirrors.cell_mono grown located
  · intro g y v inner bound
    rw [Store.frame_add] at bound
    split at bound
    · contradiction
    · exact mirrors.placed g y v inner bound
  · have old : globalFrame ≠ m.store.nextFrame := Nat.ne_of_lt mirrors.nonempty
    rw [Store.frame_add, if_neg old]
    exact mirrors.globals_mono grown

end Mirrors
end World

/-- The frame that a name of code with these local names is bound in. -/
def World.Owns (w : World) (names : Names) (x : String) (owner : FrameId) : Prop :=
  (∃ location, names.get? x = some location ∧ w.place owner x = some location) ∨
    (names.get? x = none ∧ owner = globalFrame ∧ x ∈ w.globals)

theorem World.Owns.mono {names : Names} {x : String} {owner : FrameId}
    (owns : w.Owns names x owner) (grown : w.Grows none w') : w'.Owns names x owner := by
  rcases owns with ⟨location, here, located⟩ | ⟨absent, global, bound⟩
  · exact .inl ⟨location, here, grown.place owner x location located⟩
  · exact .inr ⟨absent, global, by rwa [grown.globals nofun]⟩

open World

namespace Sim
variable {s : Scopes} {f : FrameId} {names : Names} {scope : Scope} {x : String}
  {α β : Type} {R : World → α → β → Prop}

theorem readName {id : ExprId} {name : Lexeme} (linked : w.Linked s.locals f names)
    (noted : s.Noted w.notes id name) :
    Sim opened w Same (Eval.readName f id name) (Lexical.Eval.readName names name) := by
  apply Sim.get
  intro m l mirrors
  rw [mirrors.distances, noted.2, Lexical.Machine.value?, linked.locate]
  cases found : s.distance? name.text with
  | some d =>
    obtain ⟨g, location, ancestor, locate, located⟩ := linked.chain.ancestor mirrors found
    obtain ⟨v, u, bound, held, same⟩ := mirrors.cell g name.text location located
    simp only [Store.getAt, ancestor, bound, locate, held, Eval.orFault]
    exact ⟨w, .refl w opened, mirrors, same⟩
  | none =>
    rw [linked.chain.locate_eq_none found, mirrors.get?_global]
    rcases mirrors.globals.get?_cases name.text with ⟨left, right⟩ | ⟨v, u, left, right, same⟩
    · rw [left, right]
      exact ⟨rfl, nofun, w, .refl w opened, mirrors⟩
    · rw [left, right]
      exact ⟨w, .refl w opened, mirrors, same⟩

theorem ownerOf {id : ExprId} {name : Lexeme} (linked : w.Linked s.locals f names)
    (noted : s.Noted w.notes id name) :
    Sim opened w (fun w' owner _ => w'.Owns names name.text owner) (Eval.ownerOf f id name)
      (Lexical.Eval.readName names name) := by
  apply Sim.get
  intro m l mirrors
  rw [mirrors.distances, noted.2, Lexical.Machine.value?, linked.locate]
  cases found : s.distance? name.text with
  | some d =>
    obtain ⟨g, location, ancestor, locate, located⟩ := linked.chain.ancestor mirrors found
    obtain ⟨v, u, bound, held, same⟩ := mirrors.cell g name.text location located
    have binds : m.store.binds g name.text = true := by
      simp [Store.binds, Table.contains, bound]
    simp only [Store.ownerAt, ancestor, binds, if_true, locate, held, Eval.orFault]
    exact ⟨w, .refl w opened, mirrors, .inl ⟨location, (linked.locate _).trans locate, located⟩⟩
  | none =>
    have absent := linked.chain.locate_eq_none found
    rw [absent, mirrors.owner?_global]
    rcases mirrors.globals.get?_cases name.text with ⟨left, right⟩ | ⟨v, u, left, right, _⟩
    · simp only [Store.binds, Table.contains, left, right]
      exact ⟨rfl, fun _ => Stop.noConfusion, w, .refl w opened, mirrors⟩
    · have bound : name.text ∈ w.globals := by
        rw [← mirrors.names, Table.mem_names_iff, right]
        rfl
      simp only [Store.binds, Table.contains, left, right]
      exact ⟨w, .refl w opened, mirrors, .inr ⟨(linked.locate _).trans absent, rfl, bound⟩⟩

theorem put {owner : FrameId} (owns : w.Owns names x owner) {v : Value} {u : Value Names}
    (same : Same w v u) :
    Sim opened w (fun _ _ _ => True) (Eval.define owner x v) (Lexical.Eval.put names x u) := by
  intro m l mirrors
  rcases owns with ⟨location, here, located⟩ | ⟨absent, rfl, bound⟩
  · simp only [Lexical.Eval.put, here]
    exact ⟨w, .refl w opened, mirrors.write_local located same, trivial⟩
  · have written := mirrors.write_global x same
    have names : (l.globals.insert x u).names = w.globals := by
      rw [Table.names_insert, mirrors.names, if_pos bound]
    rw [names] at written
    simp only [Lexical.Eval.put, absent]
    exact ⟨w, .refl w opened, written, trivial⟩

theorem writeName {id : ExprId} {name : Lexeme} (linked : w.Linked s.locals f names)
    (noted : s.Noted w.notes id name) {v : Value} {u : Value Names} (same : Same w v u) :
    Sim opened w (fun _ _ _ => True) (Eval.writeName f id name v)
      (Lexical.Eval.writeName names name u) :=
  (Sim.ownerOf linked noted).bind fun _ _ _ grown owns => Sim.put owns (same.mono grown)

/-- A declaration: the name becomes visible in the scope and nowhere else. -/
theorem declare (current : w.Current s f scope) (fresh : s.Fresh x) {v : Value}
    {u : Value Names} (same : Same w v u) :
    Sim (some f) w
      (fun w' _ scope' => w'.Current (s.declare x) f scope' ∧ w'.Owns scope'.names x f)
      (Eval.define f x v) (Lexical.Eval.declare scope x u) := by
  intro m l mirrors
  cases current with
  | top known =>
    have grown := w.grows_withGlobals (l.globals.insert x u).names
    have mem : x ∈ (l.globals.insert x u).names := by
      rw [Table.mem_names_iff, Table.get?_insert, if_pos rfl]
      rfl
    refine ⟨_, ⟨grown, rfl⟩, mirrors.write_global x same, .top fun y => ?_, .inr ⟨rfl, rfl, mem⟩⟩
    have before : x ∈ w.globals ↔ x ∈ _ := known x
    simp only [withGlobals, Table.names_insert, mirrors.names, before, List.contains_iff_mem]
    split
    · exact known y
    · rw [List.mem_append, List.mem_singleton, List.mem_cons, known y, or_comm]
  | @inner names outer globals f map linked owned =>
    have inside := linked.chain.1
    have absent : w.place f x = none := by
      cases located : w.place f x with
      | none => rfl
      | some location => exact absurd (owned x location located) fresh
    have inner := linked.chain.ne_global
    have grown := grows_withPlace inside inner mirrors.unused absent
    have here : (w.withPlace f x l.cells.size inside inner mirrors.unused).place f x =
        some l.cells.size := if_pos ⟨rfl, rfl⟩
    obtain ⟨_, bound, g, parent, rest⟩ := linked.chain.mono grown
    refine ⟨_, ⟨grown, rfl⟩, mirrors.declare_local inside inner absent same,
      .inner ⟨?_, fun y => ?_⟩ ?_, .inl ⟨l.cells.size, ?_, here⟩⟩
    · refine ⟨inside, fun y member => ?_, g, parent, rest⟩
      rcases List.mem_cons.mp member with rfl | member
      · exact ⟨_, here⟩
      · exact bound y member
    · -- the new name is found in this frame, every other one where it was
      have others := (linked.chain.locate_eq grown y).trans (linked.locate y).symm
      simp only [World.locate, parent, Option.bind_some] at others ⊢
      rw [Table.get?_insert]
      by_cases same : x = y
      · subst same
        simp only [List.contains_cons, beq_self_eq_true, Bool.true_or, if_true, here]
      · have different : (y == x) = false := by simpa using fun h => same h.symm
        simp only [if_neg same, List.contains_cons, different, Bool.false_or, others]
    · intro y location located
      rcases eq_or_ne y x with rfl | different
      · exact List.mem_cons_self
      · have old : w.place f y = some location := by
          simpa only [withPlace, different, and_false, if_false] using located
        exact List.mem_cons_of_mem _ (owned y location old)
    · rw [Scope.names, Table.get?_insert, if_pos rfl]

end Sim

end ScopeScript
