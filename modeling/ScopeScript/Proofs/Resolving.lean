import ScopeScript.Proofs.Scope.Agreement

/-! One resolver for many programs. Behind every program it is idle again, so that resolving two
programs one after the other is resolving them as one, and the more globals it knows the less it has
to report. -/
namespace ScopeScript
namespace Resolver

variable {r : Resolver}

/-- A resolver between two programs. -/
structure Idle (r : Resolver) : Prop where
  scopes : r.scopes = []
  functionKind : r.functionKind = .outside
  classKind : r.classKind = .outside
  locals : r.locals = []
  errors : r.errors = []
  settled : r.Settled

theorem Idle.resolve (idle : r.Idle) (program : List Stmt) : (r.resolve program).2.Idle := by
  have restored := Restores.rule.statements program r
  have depth : (statements program r).scopes.length = 0 := by rw [restored.depth, idle.scopes]; rfl
  exact ⟨List.eq_nil_of_length_eq_zero depth, restored.functionKind.trans idle.functionKind,
    restored.classKind.trans idle.classKind, rfl, rfl, restored.settled idle.settled⟩

theorem Idle.after (idle : r.Idle) (programs : List (List Stmt)) : (r.after programs).Idle := by
  induction programs generalizing r with
  | nil => exact idle
  | cons program rest ih => exact ih (idle.resolve program)

theorem withGlobals_holds (names : List String) : Holds (withGlobals names).globals names := by
  suffices listed : ∀ {t : Table Bool} {before : List String}, Holds t before →
      Holds ((names.map (·, true)).foldl (fun t e => t.insert e.1 e.2) t) (names.reverse ++ before) by
    intro x
    have found := listed .empty x
    simp only [List.append_nil, List.mem_reverse] at found
    exact found
  induction names with
  | nil => exact fun holds => holds
  | cons name rest ih =>
    intro t before holds
    rw [List.reverse_cons, List.append_assoc]
    exact ih (holds.insert name)

theorem fits_withGlobals (names : List String) :
    Fits (withGlobals names) { scopes := ⟨[], names⟩ } :=
  ⟨.nil, withGlobals_holds names, by simp [withGlobals], by simp [withGlobals], rfl⟩

theorem idle_withGlobals (names : List String) : (withGlobals names).Idle := by
  refine ⟨rfl, rfl, rfl, rfl, rfl, fun x complete known => ?_⟩
  rw [withGlobals_holds names x] at known
  split at known
  · exact (Option.some.inj known).symm
  · contradiction

/-! Two programs. -/

theorem statements_append (a b : List Stmt) (r : Resolver) :
    statements (a ++ b) r = statements b (statements a r) := by
  induction a generalizing r with
  | nil => rfl
  | cons s rest ih => exact ih (statement s r)

/-- What was collected for the first program stands in front of what the second adds. -/
theorem statements_resolve (a b : List Stmt) (r : Resolver) :
    statements (a ++ b) r = (statements b (r.resolve a).2).behind (statements a r) := by
  rw [statements_append, ← (Adds.rule.statements b).behind]
  simp [behind, resolve]

/-- What a result reports. -/
def reported {α : Type} : Except (List ScopeError) α → List ScopeError
  | .ok _ => []
  | .error errors => errors

theorem resolve_eq_ite (r : Resolver) (program : List Stmt) : (r.resolve program).1 =
    if (statements program r).errors = [] then .ok (statements program r).locals
    else .error (statements program r).errors := by
  simp only [resolve]
  cases (statements program r).errors <;> rfl

theorem resolve_eq_ok {program : List Stmt} {entries : List (ExprId × Nat)} :
    (r.resolve program).1 = .ok entries ↔
      (statements program r).errors = [] ∧ (statements program r).locals = entries := by
  rw [resolve_eq_ite]
  split
  · next clean => simp [clean]
  · next broken => simp [broken]

theorem reported_resolve (r : Resolver) (program : List Stmt) :
    reported (r.resolve program).1 = (statements program r).errors := by
  rw [resolve_eq_ite]
  split
  · next clean => exact clean.symm
  · rfl

/-- Two results as one: all distances, or all errors. -/
def joined (first second : Except (List ScopeError) (List (ExprId × Nat))) :
    Except (List ScopeError) (List (ExprId × Nat)) :=
  match first, second with
  | .ok entries, .ok others => .ok (entries ++ others)
  | _, _ => .error (reported first ++ reported second)

theorem resolve_append (a b : List Stmt) (r : Resolver) :
    r.resolve (a ++ b) =
      (joined (r.resolve a).1 ((r.resolve a).2.resolve b).1, ((r.resolve a).2.resolve b).2) := by
  have whole := statements_resolve a b r
  refine Prod.ext ?_ ?_
  · rw [resolve_eq_ite r, whole, resolve_eq_ite r a, resolve_eq_ite _ b]
    cases first : (statements a r).errors <;>
      cases second : (statements b (r.resolve a).2).errors <;>
      simp [behind, first, second, joined, reported]
  · simp only [resolve, whole]
    rfl

theorem resolve_within (idle : r.Idle) {program : List Stmt} {entries : List (ExprId × Nat)}
    (resolved : (r.resolve program).1 = .ok entries) :
    ∀ entry ∈ entries, entry.1 ∈ Stmt.idsEach program := by
  intro entry member
  rw [← (resolve_eq_ok.mp resolved).2] at member
  rcases (Adds.rule.statements program).within r entry member with old | new
  · simp [idle.locals] at old
  · exact new

end Resolver

/-- What is noted last counts. -/
theorem Distances.get?_note_or (d : Distances) (entries : List (ExprId × Nat)) (id : ExprId) :
    (d.note entries).get? id = ((Distances.note {} entries).get? id).or (d.get? id) := by
  induction entries generalizing d with
  | nil => rfl
  | cons entry rest ih =>
    have step (d : Distances) : d.note (entry :: rest) =
        Distances.note (d.insert entry.1 entry.2) rest := rfl
    have first : (d.insert entry.1 entry.2).get? id =
        ((Std.TreeMap.insert {} entry.1 entry.2 : Distances).get? id).or (d.get? id) := by
      by_cases same : entry.1 = id <;> simp [Std.TreeMap.getElem?_insert, same]
    rw [step, step, ih, ih (Std.TreeMap.insert {} entry.1 entry.2), first, Option.or_assoc]

theorem Distances.get?_note_eq_none {entries : List (ExprId × Nat)} {id : ExprId}
    (absent : ∀ entry ∈ entries, entry.1 ≠ id) : (Distances.note {} entries).get? id = none := by
  induction entries with
  | nil => rfl
  | cons entry rest ih =>
    obtain ⟨other, others⟩ := List.forall_mem_cons.mp absent
    have step : Distances.note {} (entry :: rest) =
        Distances.note (Std.TreeMap.insert {} entry.1 entry.2) rest := rfl
    rw [step, Distances.get?_note_or, ih others]
    simp [other]

/-- The union of two maps that have no use in common. -/
theorem Distances.get?_note_append {entries others : List (ExprId × Nat)}
    (disjoint : ∀ entry ∈ entries, ∀ other ∈ others, entry.1 ≠ other.1) (id : ExprId) (d : Nat) :
    (Distances.note {} (entries ++ others)).get? id = some d ↔
      (Distances.note {} entries).get? id = some d ∨
        (Distances.note {} others).get? id = some d := by
  have split : Distances.note {} (entries ++ others) = (Distances.note {} entries).note others :=
    List.foldl_append
  rw [split, Distances.get?_note_or]
  by_cases listed : ∃ entry ∈ entries, entry.1 = id
  · obtain ⟨entry, member, rfl⟩ := listed
    have absent := Distances.get?_note_eq_none fun other there same =>
      disjoint entry member other there same.symm
    rw [absent, Option.none_or]
    simp only [reduceCtorEq, or_false]
  · have absent := Distances.get?_note_eq_none fun entry member same =>
      listed ⟨entry, member, same⟩
    rw [absent, Option.or_none]
    simp only [reduceCtorEq, false_or]

namespace Resolver

/-- A resolver that knows some globals and went over programs, told by the globals behind them. -/
theorem fits_after {r : Resolver} {known : List String} (fits : Fits r { scopes := ⟨[], known⟩ })
    (idle : r.Idle) {programs : List (List Stmt)}
    (ranked : ∀ program ∈ programs, Stmt.RankedEach program) :
    Fits (r.after programs) { scopes := ⟨[], programs.foldl globalsAfter known⟩ } := by
  induction programs generalizing r known with
  | nil => exact fits
  | cons program rest ih =>
    obtain ⟨first, others⟩ := List.forall_mem_cons.mp ranked
    exact ih (fits.resolve idle.locals idle.errors first).2 (idle.resolve program) others

/-- Two resolvers between programs, the second of which knows more globals. -/
theorem knowsMore_resolve {r more : Resolver} (idle : r.Idle) (other : more.Idle)
    (known : ∀ x, r.globals.get? x = some true → more.globals.get? x = some true)
    (program : List Stmt) :
    Fewer (reported (more.resolve program).1) (reported (r.resolve program).1) ∧
      ∀ entries, (r.resolve program).1 = .ok entries → (more.resolve program).1 = .ok entries := by
  have start : KnowsMore r more := by
    refine ⟨?_, known, fun x begun => absurd (other.settled x _ begun) nofun, ?_⟩
    · obtain ⟨_, _, _, _, _, _⟩ := r
      obtain ⟨_, _, _, _, _, _⟩ := more
      obtain ⟨rfl, rfl, rfl, rfl, rfl, -⟩ := idle
      obtain ⟨rfl, rfl, rfl, rfl, rfl, -⟩ := other
      rfl
    · rw [idle.errors, other.errors]
      exact ⟨.slnil, rfl⟩
  have walked := KnowsMore.rule.statements program start
  rw [reported_resolve, reported_resolve]
  refine ⟨walked.fewer, fun entries resolved => ?_⟩
  obtain ⟨clean, locals⟩ := resolve_eq_ok.mp resolved
  refine resolve_eq_ok.mpr ⟨List.sublist_nil.mp (clean ▸ walked.fewer.sublist), ?_⟩
  rw [← locals, walked.same]

end Resolver

open Resolver

/-- A resolver may be used again and again. However it was used before, it is idle: no scope is open,
the kinds are those of the top level, nothing is left of what was collected and every global is
complete. Resolving two programs at once leaves it as resolving one after the other does, and finds
all distances of both if neither has errors, and otherwise the errors of both. For programs as they
are parsed its answers are those of the static checks against the globals so far. -/
theorem resolver_reuse_is_clean (known : List String) (programs : List (List Stmt)) :
    let r := (withGlobals known).after programs
    r.Idle ∧
    (∀ a b : List Stmt,
      let first := r.resolve a
      let second := first.2.resolve b
      r.resolve (a ++ b) = (joined first.1 second.1, second.2) ∧
      ((∀ id ∈ Stmt.idsEach a, id ∉ Stmt.idsEach b) →
        ∀ entries others, first.1 = .ok entries → second.1 = .ok others →
          ∀ id d, (Distances.note {} (entries ++ others)).get? id = some d ↔
            (Distances.note {} entries).get? id = some d ∨
              (Distances.note {} others).get? id = some d)) ∧
    ((∀ program ∈ programs, Stmt.RankedEach program) → ∀ program, Stmt.RankedEach program →
      (r.resolve program).1 = resolve (programs.foldl globalsAfter known) program) := by
  intro r
  have idle : r.Idle := (idle_withGlobals known).after programs
  refine ⟨idle, fun a b => ⟨resolve_append a b r, ?_⟩, fun each program ranked => ?_⟩
  · intro disjoint entries others first second
    apply Distances.get?_note_append
    intro entry member other there same
    have inside := resolve_within (idle.resolve a) second other there
    exact disjoint entry.1 (resolve_within idle first entry member) (same ▸ inside)
  · have fits := fits_after (fits_withGlobals known) (idle_withGlobals known) each
    exact (fits.resolve idle.locals idle.errors ranked).1

/-- A block in which a variable is read. -/
def readingBlock (x : String) (id : ExprId) : Stmt :=
  .block [.var ⟨x, 1⟩ none, .expression (.var id ⟨x, 1⟩)]

/-- Two blocks, behind a program with a misplaced `return`. -/
theorem reading_blocks_resolved_at_once :
    let r := (withGlobals []).after [[.returns ⟨"return", 1⟩ none]]
    r.Idle ∧ (r.resolve ([readingBlock "x" 0] ++ [readingBlock "y" 1])).1 = .ok [(0, 0), (1, 0)] ∧
      ∀ id d, (Distances.note {} ([(0, 0)] ++ [(1, 0)])).get? id = some d ↔
        (Distances.note {} [(0, 0)]).get? id = some d ∨
          (Distances.note {} [(1, 0)]).get? id = some d := by
  obtain ⟨idle, composed, -⟩ := resolver_reuse_is_clean [] [[.returns ⟨"return", 1⟩ none]]
  obtain ⟨whole, union⟩ := composed [readingBlock "x" 0] [readingBlock "y" 1]
  refine ⟨idle, ?_, union (by decide) [(0, 0)] [(1, 0)] rfl rfl⟩
  rw [whole]
  rfl

/-- Knowing more globals never hurts. The errors are some of those reported with fewer globals, and
only uses of variables in their own initial values are no longer among them; a program without errors
keeps its distances. So it does if one resolver goes over it twice. For programs as they are parsed
these are the results of the static checks. -/
theorem knowing_more_globals_reports_less {known more : List String} (subset : known ⊆ more)
    (program : List Stmt) :
    let one := ((withGlobals known).resolve program).1
    let other := ((withGlobals more).resolve program).1
    Fewer (reported other) (reported one) ∧
    (∀ entries, one = .ok entries → other = .ok entries) ∧
    (∀ programs entries, let r := (withGlobals known).after programs
      (r.resolve program).1 = .ok entries →
        ((r.resolve program).2.resolve program).1 = .ok entries) ∧
    (Stmt.RankedEach program →
      one = resolve known program ∧ other = resolve more program) := by
  intro one other
  have grown (x : String) (found : (withGlobals known).globals.get? x = some true) :
      (withGlobals more).globals.get? x = some true := by
    rw [withGlobals_holds] at found ⊢
    split at found
    · next member => rw [if_pos (subset member)]
    · contradiction
  obtain ⟨fewer, kept⟩ :=
    knowsMore_resolve (idle_withGlobals known) (idle_withGlobals more) grown program
  refine ⟨fewer, kept, fun programs entries => ?_, fun ranked => ?_⟩
  · have idle := (idle_withGlobals known).after programs
    have later := (Restores.rule.statements program ((withGlobals known).after programs)).known
    exact (knowsMore_resolve idle (idle.resolve program) later program).2 entries
  · exact ⟨((fits_withGlobals known).resolve rfl rfl ranked).1,
      ((fits_withGlobals more).resolve rfl rfl ranked).1⟩

/-- In its own initial value a variable may be read if it is a global already. -/
theorem own_initial_value_of_known_global :
    let program : List Stmt := [.var ⟨"x", 1⟩ (some (.var 0 ⟨"x", 1⟩))]
    (reported ((withGlobals []).resolve program).1).length = 1 ∧
      reported ((withGlobals ["x"]).resolve program).1 = [] ∧
      Fewer (reported ((withGlobals ["x"]).resolve program).1)
        (reported ((withGlobals []).resolve program).1) := by
  intro program
  have told := knowing_more_globals_reports_less (List.nil_subset ["x"]) program
  exact ⟨rfl, rfl, told.1⟩

end ScopeScript
