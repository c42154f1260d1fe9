import ScopeScript.Proofs.Grammar.Names
import ScopeScript.Proofs.Rename.Evaluate
import ScopeScript.Proofs.Rename.Position
import ScopeScript.Proofs.Simulation.Session

/-! The names of local variables do not matter. -/
namespace ScopeScript

/-- How a run ends: its outcome, what has been printed and where the clock stands. -/
def ended : EStateM.Result Stop Machine Unit → Outcome × Sink × Clock
  | .ok _ m => (.finished, m.sink, m.clock)
  | .error stop m => (.ofStop stop, m.sink, m.clock)

namespace Lexical

def ended : EStateM.Result Stop Machine Unit → Outcome × Sink × Clock
  | .ok _ m => (.finished, m.sink, m.clock)
  | .error stop m => (.ofStop stop, m.sink, m.clock)

theorem Ends.ended_eq {r : NameChange} {n : Nat} {R : Nat → Unit → Unit → Prop}
    {p q : EStateM.Result Stop Machine Unit} (ends : Ends r n R p q) : ended q = ended p := by
  cases p with
  | ok _ m =>
    cases q with
    | ok _ m' => simp only [ended, ends.2.1.sink, ends.2.1.clock]
    | error _ _ => exact ends.elim
  | error stop m =>
    cases q with
    | ok _ _ => exact ends.elim
    | error stop' m' => simp only [ended, ends.1, ends.2.sink, ends.2.clock]

theorem Machine.start_renamed (r : NameChange) (sink : Sink) (clock : Clock) :
    (Machine.start sink clock).Renamed r (Machine.start sink clock) where
  globals := .ofList (.cons ⟨rfl, .callable (.native .clock)⟩ .nil)
  cells _ := .none
  objects _ := .none
  sink := rfl
  clock := rfl

end Lexical

theorem Meets.ended_eq {opened : Option FrameId} {w : World} {R : World → Unit → Unit → Prop}
    {p : EStateM.Result Stop Machine Unit} {q : EStateM.Result Stop Lexical.Machine Unit}
    (meets : Meets opened w R p q) : ended p = Lexical.ended q := by
  cases p with
  | ok _ m =>
    cases q with
    | ok _ l =>
      obtain ⟨w', _, mirrors, _⟩ := meets
      simp only [ended, Lexical.ended, mirrors.sink, mirrors.clock]
    | error _ _ => exact meets.elim
  | error stop m =>
    cases q with
    | ok _ _ => exact meets.elim
    | error other l =>
      obtain ⟨rfl, _, w', _, mirrors⟩ := meets
      simp only [ended, Lexical.ended, mirrors.sink, mirrors.clock]

theorem Session.check_eq_ok {s t : Session} {source : String} {checked : Checked} :
    s.check source = (.ok checked, t) ↔
      checkSource s.machine.globalNames s.nextId source = (.ok checked, t.nextId) ∧
        t.machine = s.machine := by
  obtain ⟨machine, number⟩ := t
  unfold Session.check
  cases checkSource s.machine.globalNames s.nextId source with
  | mk result next =>
    simp only [Prod.mk.injEq, Session.mk.injEq]
    constructor
    · rintro ⟨found, same, number⟩
      exact ⟨⟨found, number⟩, same.symm⟩
    · rintro ⟨⟨found, number⟩, same⟩
      exact ⟨found, same.symm, number⟩

theorem ne_thisName_of_ofWord? {y : String} (notKeyword : Keyword.ofWord? y = none) :
    y ≠ thisName := by
  rintro rfl
  exact absurd notKeyword (by decide)

/-- Renaming a local variable changes nothing. In a program that passes the checks of a fresh
session, let a variable in a local scope or a parameter have another name, which is no keyword and
is not used for anything in the program, and let all uses that the noted distances lead to the
declaration have it too. The program still passes the checks, with the same distances, and its run
prints the same, ends in the same way and reads the clock as often. -/
theorem renaming_changes_nothing (sink : Sink) (clock : Clock) {source : String} {checked : Checked}
    {s : Session} (passed : (Session.start sink clock).check source = (.ok checked, s))
    {place : Nat} {kind : DeclarationKind} {name : Lexeme}
    (declares : (Stmt.marksEach checked.program)[place]? = some (.declares kind name))
    (isLocal : kind = .ofVariable ∧
      leftOpen ((Stmt.marksEach checked.program).take place) ≠ some 0 ∨ kind = .ofParameter)
    {y : String} (notKeyword : Keyword.ofWord? y = none)
    (unused : ∀ mark ∈ Stmt.marksEach checked.program, mark.name? ≠ some y) :
    let ready := s.machine.note checked.entries
    let renamed := Stmt.renameEach ⟨place, name.text, y, ready.distances⟩ [] checked.program
    resolve s.machine.globalNames renamed = .ok checked.entries ∧
      ∀ fuel, ended (interpret fuel renamed ready) =
        ended (interpret fuel checked.program ready) := by
  intro ready renamed
  obtain ⟨passes, machine⟩ := Session.check_eq_ok.mp passed
  have fits : Renaming.Fits ⟨place, name.text, y, ready.distances⟩
      (Stmt.marksEach checked.program) :=
    ⟨⟨kind, name, declares, rfl, isLocal⟩, parseSource_spelled (checkSource_eq_ok.mp passes).1,
      unused, ne_thisName_of_ofWord? notKeyword⟩
  obtain ⟨w, mirrors, _, current, agrees, _⟩ := (Session.start_mirrors sink clock).passed passes
  rw [← machine] at mirrors current agrees
  have notes : w.notes.distances = ready.distances := mirrors.distances.symm
  obtain ⟨_, code, _⟩ := Stmt.goesEach fits notes checked.program
    (Renaming.at_start _ s.machine.globalNames) agrees (List.prefix_refl _)
  have agrees' := code.scoped (.start _ _) agrees
  have resolved : resolve s.machine.globalNames checked.program = .ok checked.entries := by
    rw [machine]
    exact (checkSource_eq_ok.mp passes).2
  refine ⟨resolve_renamed code resolved, fun fuel => ?_⟩
  have first := (Sim.interpret fuel current agrees _ _ mirrors).ended_eq
  have second := (Sim.interpret fuel current agrees' _ _ mirrors).ended_eq
  have both := Lexical.interpret_parallel fuel code _ _
    (Lexical.Machine.start_renamed fits.change sink clock) rfl
  rw [first, second]
  exact both.ended_eq

/-- A variable that shadows another one in its own initial value. The use in the initial value is
left as it is, those behind it are renamed. Both programs print the number and fail where they call
it. -/
theorem shadowing_variable_renamed :
    ∃ checked s, (Session.start {} ⟨fun _ => 0, 0⟩).check "{var a=1;{var a=a;print a;a();}}" =
        (.ok checked, s) ∧
      let ready := s.machine.note checked.entries
      let renamed := Stmt.renameEach ⟨4, "a", "b", ready.distances⟩ [] checked.program
      Stmt.marksEach renamed =
        [.opens .block, .declares .ofVariable ⟨"a", 1⟩, .completes "a", .opens .block,
          .declares .ofVariable ⟨"b", 1⟩, .uses 1 ⟨"a", 1⟩, .completes "b", .uses 2 ⟨"b", 1⟩,
          .uses 3 ⟨"b", 1⟩, .closes, .closes] ∧
      resolve s.machine.globalNames renamed = .ok [(1, 1), (2, 0), (3, 0)] ∧
      (ended (interpret 9 renamed ready)).1 = .failed (.runtime ⟨.notCallable, 1⟩) ∧
      (ended (interpret 9 renamed ready)).2.1.written = "1\n".toUTF8 ∧
      ∀ fuel, ended (interpret fuel renamed ready) =
        ended (interpret fuel checked.program ready) := by
  obtain ⟨result, found⟩ : ∃ result, (Session.start {} ⟨fun _ => 0, 0⟩).check
      "{var a=1;{var a=a;print a;a();}}" = result := ⟨_, rfl⟩
  have read : result.1.toOption.map (fun checked =>
      (checked.entries, Stmt.marksEach checked.program, Stmt.marksEach (Stmt.renameEach
        ⟨4, "a", "b", (result.2.machine.note checked.entries).distances⟩ [] checked.program))) =
      some ([(1, 1), (2, 0), (3, 0)],
        [.opens .block, .declares .ofVariable ⟨"a", 1⟩, .completes "a", .opens .block,
          .declares .ofVariable ⟨"a", 1⟩, .uses 1 ⟨"a", 1⟩, .completes "a", .uses 2 ⟨"a", 1⟩,
          .uses 3 ⟨"a", 1⟩, .closes, .closes],
        [.opens .block, .declares .ofVariable ⟨"a", 1⟩, .completes "a", .opens .block,
          .declares .ofVariable ⟨"b", 1⟩, .uses 1 ⟨"a", 1⟩, .completes "b", .uses 2 ⟨"b", 1⟩,
          .uses 3 ⟨"b", 1⟩, .closes, .closes]) := by
    rw [← found]
    decide +kernel
  have ran : result.1.toOption.map (fun checked =>
      (ended (interpret 9 checked.program (result.2.machine.note checked.entries))).1) =
        some (.failed (.runtime ⟨.notCallable, 1⟩)) ∧
      result.1.toOption.map (fun checked =>
        (ended (interpret 9 checked.program
          (result.2.machine.note checked.entries))).2.1.written) = some "1\n".toUTF8 := by
    rw [← found]
    decide +kernel
  obtain ⟨answer, s⟩ := result
  cases answer with
  | error _ => cases read
  | ok checked =>
    obtain ⟨entries, rest⟩ := Prod.mk.inj (Option.some.inj read)
    obtain ⟨marks, marks'⟩ := Prod.mk.inj rest
    have declares : (Stmt.marksEach checked.program)[4]? =
        some (.declares .ofVariable ⟨"a", 1⟩) := by
      rw [marks]
      rfl
    have nested : leftOpen ((Stmt.marksEach checked.program).take 4) ≠ some 0 := by
      rw [marks]
      decide +kernel
    have unused : ∀ mark ∈ Stmt.marksEach checked.program, mark.name? ≠ some "b" := by
      rw [marks]
      decide +kernel
    obtain ⟨resolved, runs⟩ := renaming_changes_nothing {} ⟨fun _ => 0, 0⟩ found declares
      (.inl ⟨rfl, nested⟩) (by decide +kernel) unused
    refine ⟨checked, s, found, marks', resolved.trans (congrArg Except.ok entries), ?_, ?_, runs⟩
    · rw [runs 9]
      exact Option.some.inj ran.1
    · rw [runs 9]
      exact Option.some.inj ran.2

end ScopeScript
