import ScopeScript.Proofs.Parse.Places
import ScopeScript.Proofs.Simulation.Session

/-! What a run reports. Each of the passes over a source makes errors of its own kind, and only the
first pass that fails is heard. -/
namespace ScopeScript

/-- Errors of the scanner and then errors of the parser, each in the order of their lines. -/
def Diagnostic.OfSyntax (errors : List Diagnostic) : Prop :=
  ∃ (lexical : List LexicalError) (parse : List ParseError),
    errors = lexical.map .lexical ++ parse.map .parse ∧
      (lexical.map (·.line)).Pairwise (· ≤ ·) ∧ (parse.map (·.place.line)).Pairwise (· ≤ ·)

def Diagnostic.OfScoping (errors : List Diagnostic) : Prop :=
  ∃ scope : List ScopeError, errors = scope.map .scope

open Diagnostic (OfSyntax OfScoping)

theorem parseSource_eq_error {nextId next : ExprId} {source : String} {errors : List Diagnostic}
    (failed : parseSource nextId source = (.error errors, next)) :
    errors ≠ [] ∧ OfSyntax errors := by
  simp only [parseSource] at failed
  split at failed
  · cases failed
  · next some =>
    cases failed
    exact ⟨by simpa using some, _, _, rfl, lexicalErrors_lines source,
      parseTokens_lines source nextId⟩

/-- A source that fails the static checks has errors, all of one pass or of the first two. -/
theorem checkSource_eq_error {globals : List String} {nextId next : ExprId} {source : String}
    {errors : List Diagnostic}
    (failed : checkSource globals nextId source = (.error errors, next)) :
    errors ≠ [] ∧ (OfSyntax errors ∨ OfScoping errors) := by
  simp only [checkSource] at failed
  split at failed
  · next parsed =>
    cases failed
    obtain ⟨some, syntactic⟩ := parseSource_eq_error parsed
    exact ⟨some, .inl syntactic⟩
  · split at failed
    · next broken =>
      cases failed
      exact ⟨by simpa using (resolve_eq_error.mp broken).2, .inr ⟨_, rfl⟩⟩
    · cases failed

namespace Session
variable {s : Session} {fuel : Nat} {source : String}

theorem run_eq_rejected {errors : List Diagnostic}
    (rejected : (s.run fuel source).1 = .rejected errors) :
    errors ≠ [] ∧ (OfSyntax errors ∨ OfScoping errors) := by
  simp only [run, check] at rejected
  cases checked : checkSource s.machine.globalNames s.nextId source with
  | mk result next =>
    rw [checked] at rejected
    cases result with
    | error others =>
      cases rejected
      exact checkSource_eq_error checked
    | ok passed =>
      simp only at rejected
      split at rejected
      · cases rejected
      · next stop _ _ => cases stop <;> cases rejected

/-- What stops a run is an error of the program or of its output. -/
theorem run_eq_failed {error : Diagnostic} (failed : (s.run fuel source).1 = .failed error) :
    (∃ e, error = .runtime e) ∨ ∃ e, error = .output e := by
  simp only [run] at failed
  split at failed
  · cases failed
  · split at failed
    · cases failed
    · next stop _ _ =>
      cases stop with
      | error e =>
        cases failed
        exact .inl ⟨e, rfl⟩
      | output e =>
        cases failed
        exact .inr ⟨e, rfl⟩
      | fault _ | exhausted => cases failed

end Session

theorem Diagnostic.OfSyntax.exitCode {errors : List Diagnostic} (syntactic : OfSyntax errors) :
    ∀ error ∈ errors, error.exitCode = 65 := by
  obtain ⟨lexical, parse, rfl, _⟩ := syntactic
  intro error member
  rcases List.mem_append.mp member with member | member
  · obtain ⟨e, _, rfl⟩ := List.mem_map.mp member
    rfl
  · obtain ⟨e, _, rfl⟩ := List.mem_map.mp member
    rfl

theorem Diagnostic.OfScoping.exitCode {errors : List Diagnostic} (scoping : OfScoping errors) :
    ∀ error ∈ errors, error.exitCode = 65 := by
  obtain ⟨scope, rfl⟩ := scoping
  intro error member
  obtain ⟨e, _, rfl⟩ := List.mem_map.mp member
  rfl

/-- Diagnostics are sorted by the pass that makes them. Whatever a session was given before, an
input that is rejected has errors of the scanner and then of the parser, both in the order of their
lines, or only scoping errors; a run that fails has one error of the program or its output, and no
run faults. The exit code is that of all errors reported. -/
theorem diagnostics_sorted_by_pass (sink : Sink) (clock : Clock) (history : List Input)
    (fuel : Nat) (source : String) :
    let outcome := (((Session.start sink clock).after history).run fuel source).1
    (∀ errors, outcome = .rejected errors → errors ≠ [] ∧ (OfSyntax errors ∨ OfScoping errors)) ∧
    (∀ error, outcome = .failed error → (∃ e, error = .runtime e) ∨ ∃ e, error = .output e) ∧
    (∀ fault, outcome ≠ .faulted fault) ∧
    (∀ error ∈ outcome.errors, outcome.exitCode = error.exitCode) ∧
    (outcome = .finished → outcome.exitCode = 0 ∧ outcome.errors = []) := by
  intro outcome
  have rejects (errors : List Diagnostic) (rejected : outcome = .rejected errors) :=
    Session.run_eq_rejected rejected
  refine ⟨rejects, fun error failed => Session.run_eq_failed failed, ?_, ?_, ?_⟩
  · exact (((Session.start_mirrors sink clock).after history).run fuel source).2.1
  · intro error member
    cases ended : outcome with
    | rejected errors =>
      rw [ended] at member
      rcases (rejects errors ended).2 with syntactic | scoping
      · exact (syntactic.exitCode error member).symm
      · exact (scoping.exitCode error member).symm
    | failed other =>
      rw [ended] at member
      rw [List.mem_singleton.mp member]
      rfl
    | finished | faulted _ | exhausted =>
      rw [ended] at member
      nomatch member
  · intro finished
    rw [finished]
    exact ⟨rfl, rfl⟩

/-- A character that begins nothing stands behind an assignment to a group, whose error is told at
the sign on the line before. -/
theorem group_assignment_sorted :
    let outcome := ((Session.start {} ⟨fun _ => 0, 0⟩).run 5 "(a)=\nb;@\nvar;").1
    outcome.errors.map (fun e => (e.line?, e.message)) =
        [(some 2, "Unexpected character: @"), (some 1, "Invalid assignment target."),
          (some 3, "Expect variable name.")] ∧
      (OfSyntax outcome.errors ∨ OfScoping outcome.errors) ∧
      ∀ error ∈ outcome.errors, outcome.exitCode = error.exitCode := by
  intro outcome
  have reported : outcome.errors.map (fun e => (e.line?, e.message)) =
        [(some 2, "Unexpected character: @"), (some 1, "Invalid assignment target."),
          (some 3, "Expect variable name.")] := by decide +kernel
  have rejected : outcome = .rejected outcome.errors := by decide +kernel
  obtain ⟨rejects, _, _, codes, _⟩ :=
    diagnostics_sorted_by_pass {} ⟨fun _ => 0, 0⟩ [] 5 "(a)=\nb;@\nvar;"
  exact ⟨reported, (rejects _ rejected).2, codes⟩

end ScopeScript
