import ScopeScript.Machine.State
import ScopeScript.Proofs.Store.Links

/-! The laws of a store of frames. Reading and writing a name along the chain does what reading and
writing at a fixed distance does, if that is the distance of the nearest binding. A write is seen
from every frame that has the same nearest binding, and from no other. -/
namespace ScopeScript

variable {α β : Type}

/-- A step on a store alone. A step that stops says why as a step of the machine does. -/
abbrev FrameStep (α β : Type) := EStateM Stop (Store α) β

namespace FrameStep

/-- Reads a name along the chain of a frame. -/
def read (f : FrameId) (name : Lexeme) : FrameStep α α := fun s =>
  match s.get? f name.text with
  | some v => .ok v s
  | none => .error (.error ⟨.undefinedVariable name.text, name.line⟩) s

/-- Writes a name where the chain of a frame binds it. -/
def write (f : FrameId) (name : Lexeme) (value : α) : FrameStep α Unit := fun s =>
  match s.assign? f name.text value with
  | some s => .ok () s
  | none => .error (.error ⟨.undefinedVariable name.text, name.line⟩) s

def readAt (f : FrameId) (distance : Nat) (name : String) : FrameStep α α := fun s =>
  match s.getAt f distance name with
  | .ok v => .ok v s
  | .error fault => .error (.fault (.store fault)) s

def writeAt (f : FrameId) (distance : Nat) (name : String) (value : α) : FrameStep α Unit := fun s =>
  match s.assignAt f distance name value with
  | .ok s => .ok () s
  | .error fault => .error (.fault (.store fault)) s

/-- A step on the frames of a machine. -/
def onMachine (p : FrameStep Value β) : Eval β := fun m =>
  match p m.store with
  | .ok b store => .ok b { m with store }
  | .error stop store => .error stop { m with store }

end FrameStep

open FrameStep

/-- Running code reads and writes names by these steps. -/
structure FrameStep.Faithful : Prop where
  reads : ∀ f id name m, Eval.readName f id name m = onMachine (match m.distances.get? id with
    | some distance => readAt f distance name.text
    | none => FrameStep.read globalFrame name) m
  writes : ∀ f id name v m, Eval.writeName f id name v m = onMachine (match m.distances.get? id with
    | some distance => writeAt f distance name.text v
    | none => FrameStep.write globalFrame name v) m

theorem FrameStep.faithful : Faithful where
  reads f id name m := by
    rw [Eval.readName, Eval.get_bind, onMachine]
    cases m.distances.get? id with
    | some distance =>
      simp only [readAt]
      cases m.store.getAt f distance name.text <;> rfl
    | none =>
      simp only [FrameStep.read]
      cases m.store.get? globalFrame name.text <;> rfl
  writes f id name v m := by
    rw [Eval.writeName, Eval.ownerOf, bind_assoc, Eval.get_bind, onMachine]
    cases m.distances.get? id with
    | some distance =>
      simp only [writeAt, Store.assignAt]
      cases m.store.ownerAt f distance name.text <;> rfl
    | none =>
      simp only [FrameStep.write, Store.assign?]
      cases m.store.owner? globalFrame name.text <;> rfl

namespace Store

/-- A store that some frames were added to and some names defined and written in. What is done to a
frame is done to one that is there. -/
inductive Built : Store α → Prop where
  | empty : Built {}
  | new {s : Store α} : Built s → Built (s.add {})
  | child {s : Store α} {f : FrameId} : Built s → f < s.frames.size →
      Built (s.add { enclosing := some f })
  | define {s : Store α} {f : FrameId} (name : String) (value : α) : Built s →
      f < s.frames.size → Built (s.define f name value)
  | write {s s' : Store α} {f : FrameId} {name : Lexeme} {value : α} : Built s →
      f < s.frames.size → FrameStep.write f name value s = .ok () s' → Built s'
  | writeAt {s s' : Store α} {f : FrameId} {distance : Nat} {name : String} {value : α} : Built s →
      f < s.frames.size → FrameStep.writeAt f distance name value s = .ok () s' → Built s'

variable {s s' : Store α} {f g : FrameId} {d : Nat} {n : String} {v : α}

theorem Older.define (older : s.Older) : (s.define f n v).Older := by
  intro a b link
  rw [enclosing_define] at link
  exact older a b link

theorem Older.add (older : s.Older) {frame : Frame α}
    (inside : ∀ g, frame.enclosing = some g → g < s.frames.size) : (s.add frame).Older := by
  intro a b link
  rw [frame_add] at link
  split at link
  · next newest =>
    subst newest
    exact inside b link
  · exact older a b link

theorem assign?_eq_some : s.assign? f n v = some s' ↔
    ∃ g, s.owner? f n = some g ∧ s.define g n v = s' :=
  Option.map_eq_some_iff

theorem write_eq_ok {name : Lexeme} (wrote : FrameStep.write f name v s = .ok () s') :
    s.assign? f name.text v = some s' := by
  unfold FrameStep.write at wrote
  split at wrote
  · next found =>
    cases wrote
    exact found
  · contradiction

theorem ownerAt_eq_ok : s.ownerAt f d n = .ok g ↔ s.Links d f g ∧ s.binds g n = true := by
  rw [ownerAt, ← ancestor_eq_ok]
  cases s.ancestor d f with
  | error fault => simp
  | ok h =>
    dsimp only
    split
    · next bound =>
      simp only [Except.ok.injEq]
      constructor
      · rintro rfl
        exact ⟨rfl, bound⟩
      · exact And.left
    · next unbound =>
      simp only [Except.ok.injEq, reduceCtorEq, false_iff, not_and]
      rintro rfl
      exact unbound

theorem writeAt_eq_ok : FrameStep.writeAt f d n v s = .ok () s' ↔
    ∃ g, s.Links d f g ∧ s.binds g n = true ∧ s' = s.define g n v := by
  simp only [FrameStep.writeAt, assignAt, ← and_assoc, ← ownerAt_eq_ok]
  cases s.ownerAt f d n with
  | error fault => simp
  | ok g => simp [eq_comm]

theorem readAt_eq_ok : FrameStep.readAt f d n s = .ok v s ↔
    ∃ g, s.Links d f g ∧ (s.frame g).bindings.get? n = some v := by
  simp only [FrameStep.readAt, getAt, ← ancestor_eq_ok]
  cases s.ancestor d f with
  | error fault => simp
  | ok g => cases found : (s.frame g).bindings.get? n <;> simp [found]

/-- Links only ever lead to older frames. -/
theorem Built.older (built : s.Built) : s.Older := by
  induction built with
  | empty =>
    intro f g link
    simp [frame] at link
  | new _ ih =>
    apply ih.add
    rintro g ⟨⟩
  | child _ inside ih =>
    apply ih.add
    rintro g ⟨⟩
    exact inside
  | define _ _ _ _ ih => exact ih.define
  | write _ _ wrote ih =>
    obtain ⟨g, _, rfl⟩ := assign?_eq_some.mp (write_eq_ok wrote)
    exact ih.define
  | writeAt _ _ wrote ih =>
    obtain ⟨g, _, _, rfl⟩ := writeAt_eq_ok.mp wrote
    exact ih.define

/-- A step that looks `d` links out faults in two ways only. Either the frame there does not bind
the name, or there is no such frame; what is left of the distance is reported then. A fault changes
nothing. -/
structure FaultsBy (s : Store α) (f : FrameId) (d : Nat) (n : String)
    (result : EStateM.Result Stop (Store α) β) : Prop where
  unbound : result = .error (.fault (.store (.unbound n))) s ↔
    ∃ g, s.Links d f g ∧ s.binds g n = false
  tooShort : ∀ remaining, result = .error (.fault (.store (.chainTooShort remaining))) s ↔
    ∃ k outer, k < d ∧ s.Links k f outer ∧ (s.frame outer).enclosing = none ∧ remaining = d - k
  unchanged : ∀ stop s', result = .error stop s' → s' = s

theorem ownerAt_eq_error {fault : StoreFault} : s.ownerAt f d n = .error fault ↔
    (∃ g, s.Links d f g ∧ s.binds g n = false ∧ fault = .unbound n) ∨
      s.ancestor d f = .error fault := by
  simp only [ownerAt, ← ancestor_eq_ok]
  cases s.ancestor d f with
  | error other => simp
  | ok g =>
    dsimp only
    split
    · next bound =>
      constructor
      · exact nofun
      · rintro (⟨_, ⟨⟩, unbound, _⟩ | failed)
        · rw [bound] at unbound
          contradiction
        · contradiction
    · next unbound =>
      constructor
      · rintro ⟨⟩
        exact .inl ⟨g, rfl, Bool.eq_false_iff.mpr unbound, rfl⟩
      · rintro (⟨_, ⟨⟩, _, rfl⟩ | failed)
        · rfl
        · contradiction

/-- A step that faults where no frame at the distance has the name to write to. -/
theorem FaultsBy.of_ownerAt {result : EStateM.Result Stop (Store α) β}
    (raised : ∀ stop s', result = .error stop s' ↔
      ∃ fault, s.ownerAt f d n = .error fault ∧ stop = .fault (.store fault) ∧ s' = s) :
    s.FaultsBy f d n result where
  unbound := by
    rw [raised]
    constructor
    · rintro ⟨_, owned, ⟨⟩, _⟩
      rcases ownerAt_eq_error.mp owned with ⟨g, links, unbound, _⟩ | short
      · exact ⟨g, links, unbound⟩
      · obtain ⟨_, _, _, _, _, ⟨⟩⟩ := ancestor_eq_error.mp short
    · rintro ⟨g, links, unbound⟩
      exact ⟨_, ownerAt_eq_error.mpr (.inl ⟨g, links, unbound, rfl⟩), rfl, rfl⟩
  tooShort remaining := by
    rw [raised]
    constructor
    · rintro ⟨_, owned, ⟨⟩, _⟩
      rcases ownerAt_eq_error.mp owned with ⟨_, _, _, ⟨⟩⟩ | short
      obtain ⟨k, outer, below, links, outermost, same⟩ := ancestor_eq_error.mp short
      cases same
      exact ⟨k, outer, below, links, outermost, rfl⟩
    · rintro ⟨k, outer, below, links, outermost, rfl⟩
      have short : s.ancestor d f = .error (.chainTooShort (d - k)) :=
        ancestor_eq_error.mpr ⟨k, outer, below, links, outermost, rfl⟩
      exact ⟨_, ownerAt_eq_error.mpr (.inr short), rfl, rfl⟩
  unchanged stop s' failed := by
    obtain ⟨_, _, _, same⟩ := (raised stop s').mp failed
    exact same

theorem readAt_faults (s : Store α) (f : FrameId) (d : Nat) (n : String) :
    s.FaultsBy f d n (FrameStep.readAt f d n s) := by
  apply FaultsBy.of_ownerAt
  intro stop s'
  simp only [FrameStep.readAt, getAt, ownerAt]
  cases s.ancestor d f with
  | error fault => simp [eq_comm]
  | ok g => cases found : (s.frame g).bindings.get? n <;> simp [binds, Table.contains, found, eq_comm]

theorem writeAt_faults (s : Store α) (f : FrameId) (d : Nat) (n : String) (v : α) :
    s.FaultsBy f d n (FrameStep.writeAt f d n v s) := by
  apply FaultsBy.of_ownerAt
  intro stop s'
  simp only [FrameStep.writeAt, assignAt]
  cases s.ownerAt f d n <;> simp [eq_comm]

/-- What is read along any chain behind a write to a frame that binds the name. -/
theorem get?_write (older : s.Older) (bound : s.binds g n = true) (v : α) {h : FrameId}
    (inside : h < s.frames.size) (x : String) :
    (s.define g n v).get? h x =
      if x = n ∧ s.owner? h n = some g then some v else s.get? h x := by
  rw [get?, get?, owner?_define older bound v inside]
  cases owned : s.owner? h x with
  | none =>
    rw [if_neg]
    · rfl
    · rintro ⟨rfl, other⟩
      rw [owned] at other
      contradiction
  | some owner =>
    rw [Option.bind_some, Option.bind_some, get?_define (lt_size_of_binds bound)]
    by_cases same : x = n
    · subst same
      simp [owned, eq_comm]
    · simp [same, Ne.symm same]

end Store

open Store

/-- The laws of a store of frames, however it was built. If the nearest frame that binds a name is
`d` links out, reading and writing along the chain is reading and writing at that distance. A write
changes what is read from a frame just in case it is the same name and the same nearest frame. A
name that no frame on the chain binds is undefined where it is written, and nothing changes. A fixed
distance leads to exactly the frame so many links out, and faults if that frame does not bind the
name or there is none. -/
theorem frames_obey_store_laws {s : Store α} (built : s.Built) {f : FrameId}
    (there : f < s.frames.size) (n : Lexeme) (v : α) :
    FrameStep.Faithful ∧
    (∀ d g, s.Nearest f n.text d g →
      (∃ u, (s.frame g).bindings.get? n.text = some u ∧ FrameStep.read f n s = .ok u s ∧
        readAt f d n.text s = .ok u s) ∧
      ∃ s', FrameStep.write f n v s = .ok () s' ∧ writeAt f d n.text v s = .ok () s' ∧
        ∀ h < s.frames.size, ∀ x,
          ((x = n.text ∧ ∃ d', s.Nearest h n.text d' g) → s'.get? h x = some v) ∧
          (¬(x = n.text ∧ ∃ d', s.Nearest h n.text d' g) → s'.get? h x = s.get? h x)) ∧
    ((∀ d g, s.Links d f g → s.binds g n.text = false) →
      FrameStep.read f n s = .error (.error ⟨.undefinedVariable n.text, n.line⟩) s ∧
      FrameStep.write f n v s = .error (.error ⟨.undefinedVariable n.text, n.line⟩) s) ∧
    ∀ d,
      (∀ u, readAt f d n.text s = .ok u s ↔
        ∃ g, s.Links d f g ∧ (s.frame g).bindings.get? n.text = some u) ∧
      (∀ s', writeAt f d n.text v s = .ok () s' ↔
        ∃ g, s.Links d f g ∧ s.binds g n.text = true ∧ s' = s.define g n.text v) ∧
      s.FaultsBy f d n.text (readAt f d n.text s) ∧
      s.FaultsBy f d n.text (writeAt f d n.text v s) := by
  have older := built.older
  refine ⟨FrameStep.faithful, fun d g nearest => ?_, fun unbound => ?_, fun d => ?_⟩
  · have owned : s.owner? f n.text = some g := (owner?_eq_some older there).mpr ⟨d, nearest⟩
    obtain ⟨u, found⟩ := binds_iff.mp nearest.binds
    constructor
    · refine ⟨u, found, ?_, readAt_eq_ok.mpr ⟨g, nearest.links, found⟩⟩
      simp only [FrameStep.read, Store.get?, owned, Option.bind_some, found]
    · refine ⟨s.define g n.text v, ?_, writeAt_eq_ok.mpr ⟨g, nearest.links, nearest.binds, rfl⟩, ?_⟩
      · simp only [FrameStep.write, Store.assign?, owned, Option.map_some]
      · intro h inside x
        rw [get?_write older nearest.binds v inside, ← owner?_eq_some older inside]
        exact ⟨fun same => if_pos same, fun other => if_neg other⟩
  · have owned : s.owner? f n.text = none := (owner?_eq_none older there).mpr unbound
    simp [FrameStep.read, FrameStep.write, Store.get?, Store.assign?, owned]
  · exact ⟨fun u => readAt_eq_ok, fun s' => writeAt_eq_ok, readAt_faults s f d n.text,
      writeAt_faults s f d n.text v⟩

/-- Two frames inside the first, which binds `a`. The second binds `a` as well and has the third
inside. -/
def siblingFrames : Store Nat :=
  (((((({} : Store Nat).add {}).define 0 "a" 1).add { enclosing := some 0 }).define 1 "a" 2).add
    { enclosing := some 1 }).add { enclosing := some 0 }

/-- From the third frame the nearest `a` is one link out. Writing it is not seen from the fourth
frame, and at a distance of five there is nothing. -/
theorem sibling_frames_keep_apart : ∃ s' : Store Nat,
    siblingFrames.Nearest 2 "a" 1 1 ∧ FrameStep.write 2 ⟨"a", 1⟩ 9 siblingFrames = .ok () s' ∧
      writeAt 2 1 "a" 9 siblingFrames = .ok () s' ∧ s'.get? 1 "a" = some 9 ∧
      s'.get? 3 "a" = siblingFrames.get? 3 "a" ∧
      readAt 2 5 "a" siblingFrames = .error (.fault (.store (.chainTooShort 3))) siblingFrames := by
  have built : siblingFrames.Built :=
    .child (.child (.define "a" 2 (.child (.define "a" 1 (.new .empty) (by decide)) (by decide))
      (by decide)) (by decide)) (by decide)
  obtain ⟨_, bound, _, far⟩ := frames_obey_store_laws built (f := 2) (by decide) ⟨"a", 1⟩ 9
  have nearest : siblingFrames.Nearest 2 "a" 1 1 := by
    refine ⟨.out (by decide) (.here 1), by decide, fun i near h links => ?_⟩
    obtain rfl : i = 0 := Nat.lt_one_iff.mp near
    cases links
    decide
  have own : siblingFrames.Nearest 1 "a" 0 1 := ⟨.here 1, by decide, nofun⟩
  have outer : ∀ d, ¬siblingFrames.Nearest 3 "a" d 1 := by
    rintro (_ | d) ⟨links, _, passed⟩
    · cases links
    · cases links with
      | out link rest =>
        cases link
        cases rest with
        | out link _ => cases link
  obtain ⟨s', wrote, wroteAt, seen⟩ := (bound 1 1 nearest).2
  have short := ((far 5).2.2.1.tooShort 3).mpr
    ⟨2, 0, by decide, .out (g := 1) (by decide) (.out (g := 0) (by decide) (.here 0)), by decide, rfl⟩
  refine ⟨s', nearest, wrote, wroteAt, (seen 1 (by decide) "a").1 ⟨rfl, 0, own⟩, ?_, short⟩
  apply (seen 3 (by decide) "a").2
  rintro ⟨_, d, near⟩
  exact outer d near

end ScopeScript
