import ScopeScript.Store

/-! Links between frames. A frame is a number of links out from another one, at most one frame for
each number. The two ways to look a name up, along the chain and at a fixed distance, are both told
by links. Where every link points to an older frame, the chain is all there is to find. -/
namespace ScopeScript.Store

variable {α : Type} {s : Store α} {d : Nat} {f g h : FrameId} {n : String}

/-- A frame is `d` links out from another one. -/
inductive Links (s : Store α) : Nat → FrameId → FrameId → Prop where
  | here (f : FrameId) : s.Links 0 f f
  | out {d : Nat} {f g h : FrameId} : (s.frame f).enclosing = some g → s.Links d g h →
      s.Links (d + 1) f h

/-- The nearest frame that binds a name is `d` links out. -/
structure Nearest (s : Store α) (f : FrameId) (n : String) (d : Nat) (g : FrameId) : Prop where
  links : s.Links d f g
  binds : s.binds g n = true
  passed : ∀ i < d, ∀ h, s.Links i f h → s.binds h n = false

/-- Every frame is enclosed by an older one, if by any. -/
def Older (s : Store α) : Prop := ∀ f g, (s.frame f).enclosing = some g → g < f

namespace Links

theorem unique (first : s.Links d f g) (second : s.Links d f h) : g = h := by
  induction first with
  | here f =>
    cases second
    rfl
  | out link _ ih =>
    cases second with
    | out link' rest =>
      cases link.symm.trans link'
      exact ih rest

/-- Out of a frame that nothing encloses there is no further link. -/
theorem eq_zero_of_outermost (outermost : (s.frame f).enclosing = none) (links : s.Links d f g) :
    d = 0 := by
  cases links with
  | here => rfl
  | out link _ =>
    rw [outermost] at link
    contradiction

theorem succ_iff : s.Links (d + 1) f h ↔ ∃ g, (s.frame f).enclosing = some g ∧ s.Links d g h := by
  constructor
  · rintro (_ | ⟨link, rest⟩)
    exact ⟨_, link, rest⟩
  · rintro ⟨g, link, rest⟩
    exact .out link rest

end Links

/-! Looking a name up at a fixed distance. -/

theorem ancestor_eq_ok : s.ancestor d f = .ok g ↔ s.Links d f g := by
  induction d generalizing f with
  | zero =>
    rw [ancestor, Except.ok.injEq]
    constructor
    · rintro rfl
      exact .here f
    · rintro ⟨⟩
      rfl
  | succ d ih =>
    rw [ancestor, Links.succ_iff]
    cases (s.frame f).enclosing with
    | none => simp
    | some outer => simp [ih]

/-- A distance that is too long is told by what is left of it at the outermost frame. -/
theorem ancestor_eq_error {fault : StoreFault} : s.ancestor d f = .error fault ↔
    ∃ k outer, k < d ∧ s.Links k f outer ∧ (s.frame outer).enclosing = none ∧
      fault = .chainTooShort (d - k) := by
  induction d generalizing f with
  | zero =>
    rw [ancestor]
    constructor
    · exact nofun
    · rintro ⟨k, _, below, _⟩
      contradiction
  | succ d ih =>
    rw [ancestor]
    cases link : (s.frame f).enclosing with
    | none =>
      rw [Except.error.injEq]
      constructor
      · rintro rfl
        exact ⟨0, f, Nat.succ_pos d, .here f, link, rfl⟩
      · rintro ⟨k, outer, _, links, _, rfl⟩
        rw [links.eq_zero_of_outermost link, Nat.sub_zero]
    | some next =>
      rw [ih]
      constructor
      · rintro ⟨k, outer, below, links, outermost, rfl⟩
        refine ⟨k + 1, outer, Nat.succ_lt_succ below, .out link links, outermost, ?_⟩
        rw [Nat.succ_sub_succ]
      · rintro ⟨k, outer, below, links, outermost, rfl⟩
        cases links with
        | here =>
          rw [link] at outermost
          contradiction
        | @out k _ _ _ link' rest =>
          cases link.symm.trans link'
          refine ⟨k, outer, Nat.lt_of_succ_lt_succ below, rest, outermost, ?_⟩
          rw [Nat.succ_sub_succ]

/-! Looking a name up along the chain. -/

/-- A chain that is long enough lists the frames by the number of links to them. -/
theorem getElem?_chainUpTo (older : s.Older) {bound : Nat} (enough : f < bound) :
    (s.chainUpTo bound f)[d]? = some g ↔ s.Links d f g := by
  induction bound generalizing f d with
  | zero => contradiction
  | succ bound ih =>
    rw [chainUpTo]
    cases d with
    | zero =>
      rw [List.getElem?_cons_zero, Option.some.injEq]
      constructor
      · rintro rfl
        exact .here f
      · rintro ⟨⟩
        rfl
    | succ d =>
      rw [List.getElem?_cons_succ, Links.succ_iff]
      cases link : (s.frame f).enclosing with
      | none => simp
      | some outer =>
        have nearer : outer < bound := Nat.lt_of_lt_of_le (older f outer link) (Nat.le_of_lt_succ enough)
        simp [ih nearer]

theorem getElem?_chain (older : s.Older) (inside : f < s.frames.size) :
    (s.chain f)[d]? = some g ↔ s.Links d f g :=
  getElem?_chainUpTo older inside

theorem owner?_eq_some (older : s.Older) (inside : f < s.frames.size) :
    s.owner? f n = some g ↔ ∃ d, s.Nearest f n d g := by
  have chain {i : Nat} {h : FrameId} := getElem?_chain (d := i) (g := h) older inside
  rw [owner?, List.find?_eq_some_iff_getElem]
  constructor
  · rintro ⟨binds, d, below, rfl, passed⟩
    refine ⟨d, chain.mp (List.getElem?_eq_getElem below), binds, fun i near h links => ?_⟩
    obtain ⟨_, rfl⟩ := List.getElem?_eq_some_iff.mp (chain.mpr links)
    simpa using passed i near
  · rintro ⟨d, links, binds, passed⟩
    obtain ⟨below, rfl⟩ := List.getElem?_eq_some_iff.mp (chain.mpr links)
    refine ⟨binds, d, below, rfl, fun i near => ?_⟩
    have there : i < (s.chain f).length := Nat.lt_trans near below
    simpa using passed i near _ (chain.mp (List.getElem?_eq_getElem there))

theorem owner?_eq_none (older : s.Older) (inside : f < s.frames.size) :
    s.owner? f n = none ↔ ∀ d g, s.Links d f g → s.binds g n = false := by
  have chain {i : Nat} {h : FrameId} := getElem?_chain (d := i) (g := h) older inside
  rw [owner?, List.find?_eq_none]
  constructor
  · intro unbound d g links
    simpa using unbound g (List.mem_of_getElem? (chain.mpr links))
  · intro unbound g member
    obtain ⟨d, found⟩ := List.mem_iff_getElem?.mp member
    simp [unbound d g (chain.mp found)]

/-! Writing a name where it is bound. -/

theorem binds_iff : s.binds f n = true ↔ ∃ v, (s.frame f).bindings.get? n = some v :=
  Option.isSome_iff_exists

/-- Only frames that are there bind anything. -/
theorem lt_size_of_binds (bound : s.binds f n = true) : f < s.frames.size := by
  by_cases inside : f < s.frames.size
  · exact inside
  · have absent : s.frames[f]? = none := Array.getElem?_eq_none (Nat.le_of_not_lt inside)
    rw [binds, frame, Array.getD_eq_getD_getElem?, absent] at bound
    contradiction

theorem enclosing_define (s : Store α) (f : FrameId) (n : String) (v : α) (g : FrameId) :
    ((s.define f n v).frame g).enclosing = (s.frame g).enclosing := by
  simp only [frame, define, Array.getD_eq_getD_getElem?, Array.getElem?_modify]
  split
  · cases s.frames[g]? <;> rfl
  · rfl

theorem links_define {v : α} : (s.define f n v).Links d g h ↔ s.Links d g h := by
  induction d generalizing g with
  | zero => constructor <;> rintro ⟨⟩ <;> exact .here _
  | succ d ih => simp only [Links.succ_iff, enclosing_define, ih]

/-- What a frame binds to a name when another name of a frame, or the same, is written. -/
theorem get?_define (inside : f < s.frames.size) (v : α) (g : FrameId) (x : String) :
    ((s.define f n v).frame g).bindings.get? x =
      if f = g ∧ n = x then some v else (s.frame g).bindings.get? x := by
  rw [frame_define s inside]
  by_cases same : f = g
  · subst same
    simp [Table.get?_insert]
  · simp [same]

theorem binds_define (bound : s.binds f n = true) (v : α) (g : FrameId) (x : String) :
    (s.define f n v).binds g x = s.binds g x := by
  rw [binds, Table.contains, get?_define (lt_size_of_binds bound)]
  split
  · next same =>
    obtain ⟨rfl, rfl⟩ := same
    exact bound.symm
  · rfl

theorem nearest_define (bound : s.binds f n = true) {v : α} {x : String} :
    (s.define f n v).Nearest g x d h ↔ s.Nearest g x d h := by
  constructor
  · rintro ⟨links, binds, passed⟩
    refine ⟨links_define.mp links, ?_, fun i near h links => ?_⟩
    · rwa [binds_define bound] at binds
    · rw [← binds_define bound v]
      exact passed i near h (links_define.mpr links)
  · rintro ⟨links, binds, passed⟩
    refine ⟨links_define.mpr links, ?_, fun i near h links => ?_⟩
    · rwa [binds_define bound]
    · rw [binds_define bound v]
      exact passed i near h (links_define.mp links)

/-- What is read along any chain when a bound name is written. -/
theorem owner?_define (older : s.Older) (bound : s.binds f n = true) (v : α)
    (inside : g < s.frames.size) (x : String) :
    (s.define f n v).owner? g x = s.owner? g x := by
  have older' : (s.define f n v).Older := fun a b link => older a b (by rwa [enclosing_define] at link)
  have inside' : g < (s.define f n v).frames.size := by rwa [size_define]
  apply Option.ext
  intro h
  simp only [owner?_eq_some older inside, owner?_eq_some older' inside',
    nearest_define bound]

end ScopeScript.Store
