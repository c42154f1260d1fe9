import ScopeScript.Proofs.Receiver.Evaluate

/-! Receivers over whole sessions. A frame that binds a method holds its object and nothing else, for
as long as the session goes on. -/
namespace ScopeScript
open Watch

variable {t : Watch} {n n' : Notes}

/-- Later notes change nothing for what was there before. -/
theorem Watch.Sound.renote (sound : t.Sound n) (later : n'.Extends n) :
    Watch.Sound n' { t with machine := { t.machine with distances := n'.distances } } ∧
      t.Grows { t with machine := { t.machine with distances := n'.distances } } := by
  have grown : t.Grows { t with machine := { t.machine with distances := n'.distances } } :=
    { Grows.refl t with }
  exact ⟨sound.keep grown later rfl rfl rfl (fun _ _ => sound.objects_mono grown later)
    (sound.log_mono grown), grown⟩

theorem Watch.Kept.behind {α : Type} {good : Watch → α → Prop}
    {result : EStateM.Result Stop Watch α} (kept : Kept n t good result) :
    (Watch.behind result).Sound n ∧ t.Grows (Watch.behind result) := by
  cases result with
  | ok a t' => exact ⟨kept.1, kept.2.1⟩
  | error stop t' => exact kept

/-- In a program that passes the checks, `this` stands in its place. -/
theorem checkSource_placed {globals : List String} {nextId next : ExprId} {source : String}
    {checked : Checked} (passed : checkSource globals nextId source = (.ok checked, next))
    (agrees : Stmt.ScopedEach n { scopes := ⟨[], globals⟩ } checked.program) :
    Stmt.PlacedEach n [] checked.program := by
  obtain ⟨parsed, resolved⟩ := checkSource_eq_ok.mp passed
  have top : Context.Sited { scopes := ⟨[], globals⟩ } [] := ⟨.nil, fun inside => nomatch inside⟩
  exact Stmt.placedEach top agrees (parseSource_spelled parsed) (resolve_eq_ok.mp resolved).1

namespace WatchedSession
variable {s : WatchedSession}

/-- Nothing is noted yet for the numbers that are still to be handed out. -/
structure Sound (s : WatchedSession) : Prop where
  state : s.watch.Sound ⟨s.watch.machine.distances, s.nextId⟩
  unused : ∀ id, s.nextId ≤ id → s.watch.machine.distances.get? id = none

theorem start_sound (sink : Sink) (clock : Clock) : (start sink clock).Sound := by
  have frame (f : FrameId) : (Machine.start sink clock).store.frame f =
      if f = 0 then { bindings := .ofList [(Native.clock.name, .callable (.native .clock))] }
      else {} := by
    rw [Machine.start, Store.frame_add]
    split
    · exact (if_pos ‹_›).symm
    · exact (if_neg ‹_›).symm
  have role (f : FrameId) : (Watch.start sink clock).role f = .code none := by
    cases f <;> rfl
  refine ⟨⟨rfl, rfl, rfl, fun f => ?_, fun f => ?_, nofun, nofun⟩, fun _ _ => rfl⟩
  · change ((Machine.start sink clock).store.frame f).MadeFor _ ((Watch.start sink clock).role f)
    rw [role, frame]
    split <;> exact ⟨by decide, nofun⟩
  · change ((Machine.start sink clock).store.frame f).bindings.Fine _ _
    rw [frame]
    split
    · refine Table.fine_ofList fun entry member => ?_
      rw [List.mem_singleton.mp member]
      trivial
    · exact nofun

theorem Sound.of_state (state : t.Sound n)
    (unused : ∀ id, n.limit ≤ id → n.distances.get? id = none) : Sound ⟨t, n.limit⟩ := by
  obtain ⟨distances, limit⟩ := n
  obtain rfl : t.machine.distances = distances := state.distances
  exact ⟨state, unused⟩

/-- An input that only uses up numbers. -/
theorem Sound.skip (sound : s.Sound) {next : ExprId} (counts : s.nextId ≤ next) :
    Sound { s with nextId := next } := by
  have later : Notes.Extends ⟨s.watch.machine.distances, next⟩
      ⟨s.watch.machine.distances, s.nextId⟩ := ⟨counts, fun _ _ => rfl⟩
  exact ⟨(sound.state.renote later).1, fun id above => sound.unused id (Nat.le_trans counts above)⟩

theorem Sound.answer (sound : s.Sound) (input : Input) :
    (s.answer input).Sound ∧ s.watch.Grows (s.answer input).watch := by
  cases input with
  | parse source => exact ⟨sound.skip (parseSource_nextId s.nextId source), .refl _⟩
  | run fuel source =>
    have counts := checkSource_nextId s.watch.machine.globalNames s.nextId source
    rw [WatchedSession.answer]
    cases found : checkSource s.watch.machine.globalNames s.nextId source with
    | mk result next =>
      rw [found] at counts
      cases result with
      | error errors => exact ⟨sound.skip counts, .refl _⟩
      | ok checked =>
        obtain ⟨later, agrees, unused⟩ := checkSource_noted found sound.unused
        obtain ⟨ready, noted⟩ := sound.state.renote later
        have placed := checkSource_placed found agrees
        obtain ⟨behind, grown⟩ := (Watch.Keeps.interpret fuel placed ready).behind
        exact ⟨.of_state behind unused, noted.trans grown⟩

theorem Sound.after (sound : s.Sound) (history : List Input) :
    (s.after history).Sound ∧ s.watch.Grows (s.after history).watch := by
  induction history generalizing s with
  | nil => exact ⟨sound, .refl _⟩
  | cons input rest ih =>
    obtain ⟨next, grown⟩ := sound.answer input
    obtain ⟨last, later⟩ := ih next
    exact ⟨last, grown.trans later⟩

end WatchedSession

/-- Receivers are fixed. Watching a session changes nothing and misses nothing. Every frame that binds a
method holds `this` alone, which is the object it was made with, whatever is still to follow. No
other frame holds `this`, and code inside belongs to the object that the nearest method is bound to.
No `this` has failed, and each was that object. So was what an initializer gave back, whatever its
body returned. A class gave back a new object of its own, and nothing was written where a method is
bound. -/
theorem receivers_are_fixed (sink : Sink) (clock : Clock) (history : List Input) :
    let start := WatchedSession.start sink clock
    let s := start.after history
    s.session = (Session.start sink clock).after history ∧ Watch.Complete ∧
    s.watch.roles.size = s.session.machine.store.frames.size ∧
    (∀ f object, s.watch.role f = .bound object → ∀ more,
      let later := start.after (history ++ more)
      later.watch.role f = .bound object ∧
        (later.session.machine.store.frame f).bindings = .ofList [(thisName, .object object)]) ∧
    (∀ f receiver, s.watch.role f = .code receiver →
      (s.session.machine.store.frame f).bindings.get? thisName = none ∧
        ∀ g, (s.session.machine.store.frame f).enclosing = some g →
          receiver = (s.watch.role g).receiver?) ∧
    (∀ more, s.watch.log <+: (start.after (history ++ more)).watch.log) ∧
    ∀ event ∈ s.watch.log, event.Good s.session.machine := by
  intro start s
  have sound := ((WatchedSession.start_sound sink clock).after history).1
  refine ⟨start.after_session history, Watch.complete, sound.state.size, ?_, ?_, ?_, sound.state.log⟩
  · intro f object bound more
    obtain ⟨later, grown⟩ := sound.after more
    rw [← start.after_append] at later grown
    have still := grown.bound bound
    exact ⟨still, later.state.bound still⟩
  · intro f receiver code
    have made := sound.state.made f
    rw [code] at made
    exact ⟨made.1, fun g link => (made.2 g link).2⟩
  · intro more
    rw [start.after_append]
    exact s.after_log more

/-- A method with an inner function, taken from an object of a class that inherits it and its `init`.
The sixth frame binds it to that object, which is `this` in the inner function later on. -/
theorem inner_function_keeps_receiver :
    ∃ s, (WatchedSession.start {} ⟨fun _ => 0, 0⟩).after
        [.run 20 "class A{init(){return;}me(){fun g(){return this;}return g;}}class B<A{}",
          .run 20 "A();var m=B().me;m()();"] = s ∧
      s.watch.role 5 = .bound 1 ∧
      (s.session.machine.store.frame 5).bindings = .ofList [(thisName, .object 1)] ∧
      s.watch.log.filterMap (fun
        | .this (some receiver) (some (.object i)) => some ("this", receiver, i)
        | .initialized (some receiver) (some (.object i)) => some ("init", receiver, i)
        | .constructed origin count (.object i) => some (origin.name, count, i)
        | _ => none) =
        [("init", 0, 0), ("A", 0, 0), ("init", 1, 1), ("B", 1, 1), ("this", 1, 1)] := by
  have told := receivers_are_fixed {} ⟨fun _ => 0, 0⟩
    [.run 20 "class A{init(){return;}me(){fun g(){return this;}return g;}}class B<A{}",
      .run 20 "A();var m=B().me;m()();"]
  obtain ⟨s, after⟩ : ∃ s, (WatchedSession.start {} ⟨fun _ => 0, 0⟩).after
    [.run 20 "class A{init(){return;}me(){fun g(){return this;}return g;}}class B<A{}",
      .run 20 "A();var m=B().me;m()();"] = s := ⟨_, rfl⟩
  have bound : s.watch.role 5 = .bound 1 := by
    rw [← after]
    decide +kernel
  refine ⟨s, after, bound, ?_, ?_⟩
  · dsimp only at told
    rw [after] at told
    obtain ⟨_, _, _, fixed, _⟩ := told
    have later := (fixed 5 1 bound []).2
    rw [List.append_nil, after] at later
    exact later
  · rw [← after]
    decide +kernel

end ScopeScript
