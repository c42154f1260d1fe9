import ScopeScript.Proofs.Parse.Numbering
import ScopeScript.Proofs.Scope.Scoped
import ScopeScript.Session

/-! What the static checks promise about a program that passes them. -/
namespace ScopeScript

theorem parseSource_nextId (nextId : ExprId) (source : String) :
    nextId ≤ (parseSource nextId source).2 := by
  have counts := parseFrom_nextId (Cursor.ofTokens (tokens source) nextId).rest.length
    (Cursor.ofTokens (tokens source) nextId)
  exact counts

theorem checkSource_nextId (globals : List String) (nextId : ExprId) (source : String) :
    nextId ≤ (checkSource globals nextId source).2 := by
  have counts := parseSource_nextId nextId source
  unfold checkSource
  cases parsed : parseSource nextId source with
  | mk result next =>
    rw [parsed] at counts
    cases result with
    | error errors => exact counts
    | ok program =>
      dsimp only
      cases resolve globals program <;> exact counts

/-- A program without lexical errors and parse errors. -/
theorem parseSource_eq_ok {nextId next : ExprId} {source : String} {program : List Stmt} :
    parseSource nextId source = (.ok program, next) ↔
      lexicalErrors source = [] ∧ parseTokens (tokens source) nextId = ⟨program, [], next⟩ := by
  unfold parseSource
  cases parseTokens (tokens source) nextId with
  | mk statements errors number =>
    cases lexicalErrors source with
    | cons _ _ => simp
    | nil => cases errors <;> simp

theorem checkSource_eq_ok {globals : List String} {nextId next : ExprId} {source : String}
    {checked : Checked} :
    checkSource globals nextId source = (.ok checked, next) ↔
      parseSource nextId source = (.ok checked.program, next) ∧
        resolve globals checked.program = .ok checked.entries := by
  obtain ⟨program, entries⟩ := checked
  unfold checkSource
  cases parseSource nextId source with
  | mk result number =>
    cases result with
    | error errors => simp
    | ok parsed =>
      dsimp only
      cases found : resolve globals parsed with
      | error errors =>
        simp only [Prod.mk.injEq, reduceCtorEq, false_and, false_iff]
        rintro ⟨⟨⟨⟩, _⟩, resolved⟩
        rw [found] at resolved
        contradiction
      | ok others =>
        simp only [Prod.mk.injEq, Except.ok.injEq, Checked.mk.injEq]
        constructor
        · rintro ⟨⟨rfl, rfl⟩, rfl⟩
          exact ⟨⟨rfl, rfl⟩, found⟩
        · rintro ⟨⟨rfl, rfl⟩, resolved⟩
          rw [found] at resolved
          cases resolved
          exact ⟨⟨rfl, rfl⟩, rfl⟩

/-- The nodes of a program are numbered anew, and its declarations stand where they may. -/
theorem parseSource_drawn {nextId next : ExprId} {source : String} {program : List Stmt}
    (parsed : parseSource nextId source = (.ok program, next)) :
    Drawn nextId next (Stmt.idsEach program) ∧ Stmt.RankedEach program := by
  obtain ⟨_, parsed⟩ := parseSource_eq_ok.mp parsed
  unfold parseTokens at parsed
  have clean := congrArg Parsed.errors parsed
  have drawn := parseFrom_drawn _ _ clean
  rw [parsed] at drawn
  exact drawn

theorem checkSource_drawn {globals : List String} {nextId next : ExprId} {source : String}
    {checked : Checked} (passed : checkSource globals nextId source = (.ok checked, next)) :
    Drawn nextId next (Stmt.idsEach checked.program) ∧ Stmt.RankedEach checked.program :=
  parseSource_drawn (checkSource_eq_ok.mp passed).1

/-- A program without scoping errors. -/
theorem resolve_eq_ok {globals : List String} {program : List Stmt}
    {entries : List (ExprId × Nat)} :
    resolve globals program = .ok entries ↔
      (programFindings globals program).filterMap Finding.error? = [] ∧
        (programFindings globals program).filterMap Finding.entry? = entries := by
  simp only [resolve]
  cases (programFindings globals program).filterMap Finding.error? <;> simp

/-- A program with scoping errors. -/
theorem resolve_eq_error {globals : List String} {program : List Stmt} {errors : List ScopeError} :
    resolve globals program = .error errors ↔
      (programFindings globals program).filterMap Finding.error? = errors ∧ errors ≠ [] := by
  simp only [resolve]
  cases (programFindings globals program).filterMap Finding.error? with
  | nil => simp [eq_comm]
  | cons first rest =>
    simp only [Except.error.injEq]
    constructor
    · rintro rfl
      exact ⟨rfl, List.cons_ne_nil _ _⟩
    · exact And.left

/-- Distances are found for nodes of the program only. -/
theorem resolve_within {globals : List String} {program : List Stmt}
    {entries : List (ExprId × Nat)} (resolved : resolve globals program = .ok entries) :
    (entries.map Prod.fst).Sublist (Stmt.idsEach program) := by
  simp only [resolve] at resolved
  split at resolved
  · cases resolved
    exact Stmt.findingsEach_within _ program
  · contradiction

/-- Distances of a program with new numbers leave what was noted as it was. -/
theorem Distances.note_of_drawn {d : Distances} {low high : Nat} {ids : List Nat}
    {entries : List (Nat × Nat)} (drawn : Drawn low high ids)
    (within : (entries.map Prod.fst).Sublist ids) {id : Nat}
    (outside : id < low ∨ high ≤ id) : (d.note entries).get? id = d.get? id := by
  have absent : entries.lookup id = none := by
    rw [List.lookup_eq_none_iff]
    intro entry member
    have range := drawn.range _ (within.subset (List.mem_map_of_mem member))
    simp only [bne_iff_ne, ne_eq]
    rintro rfl
    omega
  rw [Distances.get?_note d (drawn.nodup.sublist within), absent, Option.none_or]

/-- A program that passes the checks agrees with its distances once they are noted, if nothing was
noted for new numbers before. What was noted stays, and nothing is noted for later numbers. -/
theorem checkSource_noted {globals : List String} {nextId next : ExprId} {source : String}
    {checked : Checked} (passed : checkSource globals nextId source = (.ok checked, next))
    {d : Distances} (unused : ∀ id, nextId ≤ id → d.get? id = none) :
    Notes.Extends ⟨d.note checked.entries, next⟩ ⟨d, nextId⟩ ∧
      Stmt.ScopedEach ⟨d.note checked.entries, next⟩ { scopes := ⟨[], globals⟩ } checked.program ∧
      ∀ id, next ≤ id → (d.note checked.entries).get? id = none := by
  obtain ⟨drawn, ranked⟩ := checkSource_drawn passed
  have resolved := (checkSource_eq_ok.mp passed).2
  have within := resolve_within resolved
  refine ⟨⟨drawn.le, fun id below => ?_⟩, ?_, fun id above => ?_⟩
  · exact Distances.note_of_drawn drawn within (.inl below)
  · exact resolve_scoped resolved ranked drawn.nodup (fun id member => (drawn.range id member).2)
      fun id member => unused id (drawn.range id member).1
  · rw [Distances.note_of_drawn drawn within (.inr above)]
    exact unused id (Nat.le_trans drawn.le above)

end ScopeScript
