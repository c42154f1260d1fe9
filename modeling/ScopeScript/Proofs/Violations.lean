import Mathlib.Data.List.Forall2
import ScopeScript.Proofs.Grammar.Names
import ScopeScript.Proofs.Scope.Walk

/-! Static scoping rejects the programs that break its rules and no others. -/
namespace ScopeScript

/-- The mark at position `i` of a text breaks a rule. -/
def ViolatesAt (known : List String) (text : List Mark) (i : Nat) (error : ScopeError) : Prop :=
  ∃ mark, text[i]? = some mark ∧ Violation known (text.take i) mark error

section Positions
variable {known : List String} {before rest : List Mark} {mark : Mark} {error : ScopeError}

theorem violatesAt_length : ViolatesAt known (before ++ mark :: rest) before.length error ↔
    Violation known before mark error := by
  simp [ViolatesAt]

/-- A mark breaks at most one rule. -/
theorem Violation.unique {other : ScopeError} (first : Violation known before mark error)
    (second : Violation known before mark other) : error = other := by
  cases first <;> cases second <;> rfl

/-- What is reported at one mark. -/
theorem Tells.errors {findings : List Finding} (told : Tells known before mark findings) :
    (findings.filterMap Finding.error? = [] ∧ ∀ error, ¬Violation known before mark error) ∨
      ∃ error, findings.filterMap Finding.error? = [error] ∧ Violation known before mark error := by
  match findings, told with
  | [], told => exact .inl ⟨rfl, fun error broken => nomatch (told.breach error).mpr broken⟩
  | [.found id d], told =>
    refine .inl ⟨rfl, fun error broken => ?_⟩
    have reported := (told.breach error).mpr broken
    simp at reported
  | [.breach error], told =>
    exact .inr ⟨error, rfl, (told.breach error).mp (List.mem_singleton_self _)⟩
  | _ :: _ :: _, told => exact absurd told.atMostOne (by simp)

/-- The errors reported on a piece of text are those at the positions where a rule is broken. -/
theorem Walk.errors {text : List Mark} {findings : List Finding}
    (walk : Walk known before text findings) :
    ∃ sites : List Nat, sites.Pairwise (· < ·) ∧
      (∀ i, i ∈ sites ↔ before.length ≤ i ∧ ∃ error, ViolatesAt known (before ++ text) i error) ∧
      List.Forall₂ (ViolatesAt known (before ++ text)) sites
        (findings.filterMap Finding.error?) := by
  induction walk with
  | done before =>
    refine ⟨[], .nil, fun i => ?_, .nil⟩
    simp only [List.not_mem_nil, List.append_nil, false_iff, not_and, not_exists]
    rintro above error ⟨mark, here, _⟩
    rw [List.getElem?_eq_none above] at here
    contradiction
  | @step before rest mark findings more here further ih =>
    obtain ⟨sites, rising, exact, matched⟩ := ih
    rw [List.append_assoc, List.singleton_append] at exact matched
    rw [List.length_append, List.length_singleton] at exact
    have first (i : Nat) : before.length ≤ i ↔ i = before.length ∨ before.length + 1 ≤ i := by
      omega
    rw [List.filterMap_append]
    rcases here.errors with ⟨nothing, sound⟩ | ⟨error, only, broken⟩
    · refine ⟨sites, rising, fun i => ?_, by simpa [nothing] using matched⟩
      rw [exact, first, or_and_right]
      simp only [iff_or_self]
      rintro ⟨rfl, error, broken⟩
      exact absurd (violatesAt_length.mp broken) (sound error)
    · refine ⟨before.length :: sites, ?_, fun i => ?_, ?_⟩
      · refine List.pairwise_cons.mpr ⟨fun i member => ?_, rising⟩
        exact ((exact i).mp member).1
      · rw [List.mem_cons, exact, first, or_and_right]
        have broken : ∃ error, ViolatesAt known (before ++ mark :: rest) before.length error :=
          ⟨error, violatesAt_length.mpr broken⟩
        constructor
        · rintro (rfl | later)
          · exact .inl ⟨rfl, broken⟩
          · exact .inr later
        · rintro (⟨rfl, _⟩ | later)
          · exact .inl rfl
          · exact .inr later
      · rw [only]
        exact .cons (violatesAt_length.mpr broken) matched

end Positions

/-- Static scoping finds exactly the breaches of its rules. A program that is parsed is rejected if
one of its marks breaks a rule, and then there is one error for each such mark in their order. -/
theorem resolve_reports_violations {nextId next : ExprId} {source : String} {program : List Stmt}
    (parsed : parseSource nextId source = (.ok program, next)) (known : List String) :
    let text := Stmt.marksEach program
    ((∃ errors, resolve known program = .error errors) ↔
      ∃ i error, ViolatesAt known text i error) ∧
    (∀ errors, resolve known program = .error errors →
      ∃ sites : List Nat, sites.Pairwise (· < ·) ∧
        (∀ i, i ∈ sites ↔ ∃ error, ViolatesAt known text i error) ∧
        List.Forall₂ (ViolatesAt known text) sites errors) ∧
    ∀ i error other, ViolatesAt known text i error → ViolatesAt known text i other →
      error = other := by
  intro text
  have ranked := (parseSource_drawn parsed).2
  have walk := programFindings_walk known ranked (parseSource_spelled parsed)
  obtain ⟨sites, rising, exact, matched⟩ := walk.errors
  simp only [List.nil_append, List.length_nil, Nat.zero_le, true_and] at exact matched
  refine ⟨?_, fun errors failed => ?_, ?_⟩
  · constructor
    · rintro ⟨errors, failed⟩
      obtain ⟨same, some⟩ := resolve_eq_error.mp failed
      rw [same] at matched
      cases matched with
      | nil => contradiction
      | cons broken _ => exact ⟨_, _, broken⟩
    · rintro ⟨i, error, broken⟩
      have member := (exact i).mpr ⟨error, broken⟩
      refine ⟨_, resolve_eq_error.mpr ⟨rfl, fun none => ?_⟩⟩
      rw [none] at matched
      cases matched
      contradiction
  · obtain ⟨rfl, _⟩ := resolve_eq_error.mp failed
    exact ⟨sites, rising, exact, matched⟩
  · rintro i error other ⟨mark, here, first⟩ ⟨_, there, second⟩
    cases here.symm.trans there
    exact first.unique second

/-- Each rule is broken once: the second `a` is declared in the scope of a parameter, and the
initial value of `b` uses `b`. -/
theorem all_violations_reported :
    ∃ program next errors,
      parseSource 0 "class A<A{}fun f(a){var a;}return this;{var b=b;}" = (.ok program, next) ∧
      resolve ["clock"] program = .error errors ∧
      errors.map (·.cause) = [.ownSuperclass, .duplicateName, .topLevelReturn, .thisOutsideClass,
        .ownInitialValue] ∧
      ∃ sites : List Nat, sites.length = 5 ∧
        ∀ i, i ∈ sites ↔ ∃ error, ViolatesAt ["clock"] (Stmt.marksEach program) i error := by
  obtain ⟨result, parsed⟩ :
      ∃ result, parseSource 0 "class A<A{}fun f(a){var a;}return this;{var b=b;}" = result :=
    ⟨_, rfl⟩
  have causes : result.1.toOption.map (fun program => match resolve ["clock"] program with
      | .ok _ => []
      | .error errors => errors.map (·.cause)) = some [.ownSuperclass, .duplicateName,
        .topLevelReturn, .thisOutsideClass, .ownInitialValue] := by
    rw [← parsed]
    decide +kernel
  obtain ⟨found, next⟩ := result
  cases found with
  | error _ => contradiction
  | ok program =>
    cases resolved : resolve ["clock"] program with
    | ok entries => simp [Except.toOption, resolved] at causes
    | error errors =>
      have causes : errors.map (·.cause) = [.ownSuperclass, .duplicateName, .topLevelReturn,
          .thisOutsideClass, .ownInitialValue] := by
        simpa [Except.toOption, resolved] using causes
      obtain ⟨_, reports, _⟩ := resolve_reports_violations parsed ["clock"]
      obtain ⟨sites, _, exact, matched⟩ := reports errors resolved
      have count : sites.length = 5 := by
        rw [matched.length_eq, ← List.length_map (f := (·.cause)), causes]
        rfl
      exact ⟨program, next, errors, parsed, resolved, causes, sites, count, exact⟩

end ScopeScript
