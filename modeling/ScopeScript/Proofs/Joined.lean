import ScopeScript.Proofs.FailingToken
import ScopeScript.Proofs.Rejected

/-! Two inputs given as one. A source that runs through and a source that passes the checks behind
it can as well be given as one source with a line break in between. -/
namespace ScopeScript

/-! The static checks. -/

/-- The second source is checked against the globals that the first declares. -/
theorem checkSource_join {globals globals' : List String} {nextId middle next : ExprId}
    {first second : String} {one other : Checked}
    (passed : checkSource globals nextId first = (.ok one, middle))
    (passed' : checkSource globals' middle second = (.ok other, next))
    (alike : Scopes.Alike ⟨[], globals'⟩ (one.program.foldl Scopes.after ⟨[], globals⟩)) :
    ∃ entries, checkSource globals nextId (first ++ "\n" ++ second) =
      (.ok ⟨one.program ++ Stmt.relabelEach (.down (1 + lineBreaks first)) other.program,
        entries⟩, next) := by
  obtain ⟨parsed, resolved⟩ := checkSource_eq_ok.mp passed
  obtain ⟨parsed', resolved'⟩ := checkSource_eq_ok.mp passed'
  have clean := resolve_ok_iff.mp ⟨_, resolved⟩
  have clean' := resolve_ok_iff.mp ⟨_, resolved'⟩
  have alike' : Context.Alike { scopes := ⟨[], globals'⟩ }
      (one.program.foldl Context.after { scopes := ⟨[], globals⟩ }) := by
    rw [Context.foldl_after]
    exact ⟨alike, rfl, rfl, rfl⟩
  have whole : (programFindings globals (one.program ++
      Stmt.relabelEach (.down (1 + lineBreaks first)) other.program)).filterMap Finding.error? =
        [] := by
    rw [programFindings, Stmt.findingsEach_append, List.filterMap_append,
      clean_relabel _ alike' clean', List.append_nil]
    exact clean
  obtain ⟨entries, resolved⟩ := resolve_ok_iff.mpr whole
  exact ⟨entries, checkSource_eq_ok.mpr ⟨parseSource_join parsed parsed', resolved⟩⟩

namespace Lexical

theorem Session.check_of_passed {s : Session} {fuel : Nat} {source : String}
    (passed : (s.run fuel source).1.isRejected = false) :
    ∃ checked next,
      checkSource s.machine.globalNames s.nextId source = (.ok checked, next) := by
  unfold Session.run at passed
  cases found : checkSource s.machine.globalNames s.nextId source with
  | mk result next =>
    cases result with
    | error errors =>
      rw [found] at passed
      contradiction
    | ok checked => exact ⟨checked, next, rfl⟩

theorem interpret_of_finished {fuel : Nat} {program : List Stmt} {m : Machine}
    (finished : (ending (interpret fuel program m)).1 = .finished) :
    interpret fuel program m = .ok () (ending (interpret fuel program m)).2 := by
  cases found : interpret fuel program m with
  | ok _ l => rfl
  | error stop l =>
    rw [found] at finished
    cases stop <;> contradiction

end Lexical

theorem Outcome.isRejected_onLine (line : Nat → Nat) (outcome : Outcome) :
    (outcome.onLine line).isRejected = outcome.isRejected := by
  unfold Outcome.onLine
  split <;> rfl

/-- A run that passes the checks is of one of the two kinds. -/
theorem Session.Mirrors.exists_failsInSource {s : Session} {l : Lexical.Session}
    (mirrors : s.Mirrors l) {fuel : Nat} {source : String}
    (passed : (s.run fuel source).1.isRejected = false) :
    ∃ own, s.FailsInSource fuel source own := by
  rw [(mirrors.run fuel source).1] at passed
  obtain ⟨checked, next, passes⟩ := Lexical.Session.check_of_passed passed
  rw [mirrors.globalNames_eq, mirrors.nextId] at passes
  obtain ⟨own, fails⟩ := Lexical.exists_failsInProgram fuel checked.program l.machine
  exact ⟨own, (mirrors.failsInSource_iff passes own).mpr fails⟩

/-- One source behind another, without frames and distances. -/
theorem Session.Mirrors.lexical_join {s t : Session} {l k : Lexical.Session} {fuel : Nat}
    {first second : String} (mirrors : s.Mirrors l) (behind : t.Mirrors k)
    (ran : l.run fuel first = (.finished, k))
    {own : Bool} (fails : t.FailsInSource fuel second own) :
    let apart := k.run fuel second
    let joined := l.run fuel (first ++ "\n" ++ second)
    joined.1 = apart.1.onLine (if own then (· + (1 + lineBreaks first)) else id) ∧
      joined.2.machine.sink = apart.2.machine.sink ∧
      joined.2.machine.globalNames = apart.2.machine.globalNames ∧
      joined.2.nextId = apart.2.nextId := by
  have passed : (l.run fuel first).1.isRejected = false := by rw [ran]; rfl
  obtain ⟨one, middle, check⟩ := Lexical.Session.check_of_passed passed
  rw [Lexical.Session.run_of_check check] at ran
  obtain ⟨finished, rfl⟩ := Prod.mk.inj ran
  have interpreted := Lexical.interpret_of_finished finished
  have ⟨other, next, check', _⟩ := fails
  rw [behind.failsInSource_iff check'] at fails
  rw [← behind.globalNames_eq, ← behind.nextId] at check'
  rw [mirrors.globalNames_eq, mirrors.nextId] at check
  obtain ⟨runs, alike⟩ := mirrors.ran_through check interpreted
  obtain ⟨entries, whole⟩ := checkSource_join check check' alike
  rw [← mirrors.globalNames_eq, ← mirrors.nextId] at whole
  -- the functions of earlier inputs stay where they are
  have outcome := fails id (· + (1 + lineBreaks first))
  have kept := Lexical.ending_lines fuel other.program
    (Lexical.ending (Lexical.interpret fuel one.program l.machine)).2 id
    (· + (1 + lineBreaks first))
  rw [show Relabel.lines id = .refl from rfl, Lexical.Machine.relabel_refl] at outcome kept
  dsimp only
  rw [Lexical.Session.run_of_check whole, Lexical.Session.run_of_check check',
    Lexical.interpret_append runs]
  exact ⟨outcome, kept.1, kept.2, rfl⟩

/-- Splitting a source between two inputs does not change its meaning. The whole source passes the
checks, ends as its second part does and prints what its parts print, the one after the other. It
leaves the same global names, and as many numbers are used up. A runtime failure is further down if
its token is one of the second part. It stays on its line if the token is one of an input before. -/
theorem split_source_runs_alike (sink : Sink) (clock : Clock) (inputs : List Input)
    {s t u : Session} {fuel : Nat} {first second : String} {outcome : Outcome}
    (reached : (Session.start sink clock).after inputs = s)
    (ran : s.run fuel first = (.finished, t)) (ran' : t.run fuel second = (outcome, u))
    (passed : outcome.isRejected = false) :
    ∃ (own : Bool) (v : Session),
      t.FailsInSource fuel second own ∧
      (∀ e, outcome = .failed (.runtime e) →
        (∀ other, t.FailsInSource fuel second other → other = own) ∧
        ∃ origin, ∃ token ∈ tokens origin, token.line = e.line ∧
          if own then origin = second
          else ∃ fuel', .run fuel' origin ∈ inputs ++ [.run fuel first]) ∧
      s.run fuel (first ++ "\n" ++ second) =
        (outcome.onLine (if own then (· + (1 + lineBreaks first)) else id), v) ∧
      (s.run fuel (first ++ "\n" ++ second)).1.isRejected = false ∧
      v.machine.sink.since s.machine.sink =
        t.machine.sink.since s.machine.sink ++ u.machine.sink.since t.machine.sink ∧
      v.machine.globalNames = u.machine.globalNames ∧ v.nextId = u.nextId := by
  have reached' : (Session.start sink clock).after (inputs ++ [.run fuel first]) = t := by
    rw [Session.after_append, reached]
    exact congrArg Prod.snd ran
  have mirrors := (Session.start_mirrors sink clock).after inputs
  rw [reached] at mirrors
  generalize (Lexical.Session.start sink clock).after inputs = l at mirrors
  obtain ⟨same, _, earlier, behind⟩ := mirrors.run fuel first
  rw [ran] at same earlier behind
  obtain ⟨same', _, later, behind'⟩ := behind.run fuel second
  rw [ran'] at same' later behind'
  obtain ⟨whole, _, _, last⟩ := mirrors.run fuel (first ++ "\n" ++ second)
  have passed' : (t.run fuel second).1.isRejected = false := by rw [ran', passed]
  obtain ⟨own, fails⟩ := behind.exists_failsInSource passed'
  have finished : l.run fuel first = (.finished, (l.run fuel first).2) := Prod.ext same.symm rfl
  obtain ⟨joined, sinks, globals, numbers⟩ := mirrors.lexical_join behind finished fails
  rw [← whole, ← same'] at joined
  refine ⟨own, (s.run fuel (first ++ "\n" ++ second)).2, fails, fun e failed => ?_,
    Prod.ext joined rfl, ?_, ?_, ?_, ?_⟩
  · have failed' : (t.run fuel second).1 = .failed (.runtime e) := by rw [ran', failed]
    exact ⟨fun other fails' => fails'.unique fails failed', fails.exists_token reached' failed'⟩
  · rw [joined, Outcome.isRejected_onLine, passed]
  · have sink_eq : (s.run fuel (first ++ "\n" ++ second)).2.machine.sink = u.machine.sink := by
      rw [last.sink_eq, sinks, behind'.sink_eq]
    rw [sink_eq]
    exact Sink.since_append earlier later
  · rw [← last.globalNames_eq, globals, behind'.globalNames_eq]
  · rw [← last.nextId, numbers, behind'.nextId]

/-- The first source declares a function with a failing call, on its third line. A call that fails on
the second line of the source behind it is on the sixth line of the whole. The call in the
function stays on the third line. -/
theorem split_source_with_failing_call :
    let s := Session.start {} ⟨fun _ => 0, 0⟩
    let first := "var a;\n\nfun f() {a();}\nprint \"one\";"
    let t := (s.run 9 first).2
    let failing (line : Nat) : Outcome := .failed (.runtime ⟨.notCallable, line⟩)
    (t.FailsInSource 9 "print \"two\";\na();" true ∧
      (t.run 9 "print \"two\";\na();").1 = failing 2 ∧
      ∃ v, s.run 9 (first ++ "\n" ++ "print \"two\";\na();") = (failing 6, v) ∧
        v.machine.sink.since s.machine.sink = "one\ntwo\n".toUTF8) ∧
    t.FailsInSource 9 "print \"two\";\nf();" false ∧
      (t.run 9 "print \"two\";\nf();").1 = failing 3 ∧
      ∃ v, s.run 9 (first ++ "\n" ++ "print \"two\";\nf();") = (failing 3, v) ∧
        v.machine.sink.since s.machine.sink = "one\ntwo\n".toUTF8 := by
  intro s first t failing
  have finished : s.run 9 first = (.finished, t) := Prod.ext (by decide +kernel) rfl
  have breaks : 1 + lineBreaks first = 4 := by decide +kernel
  have one : t.machine.sink.since s.machine.sink = "one\n".toUTF8 := by decide +kernel
  have whole (own : Bool) (second : String) (line : Nat)
      (failed : (t.run 9 second).1 = failing line)
      (moved : (s.run 9 (first ++ "\n" ++ second)).1 = failing (if own then line + 4 else line))
      (two : (t.run 9 second).2.machine.sink.since t.machine.sink = "two\n".toUTF8) :
      t.FailsInSource 9 second own ∧ (t.run 9 second).1 = failing line ∧
        ∃ v, s.run 9 (first ++ "\n" ++ second) = (failing (if own then line + 4 else line), v) ∧
          v.machine.sink.since s.machine.sink = "one\ntwo\n".toUTF8 := by
    obtain ⟨here, v, fails, _, joined, _, printed, _⟩ :=
      split_source_runs_alike (s := s) {} ⟨fun _ => 0, 0⟩ [] rfl finished (Prod.ext failed rfl) rfl
    rw [breaks] at joined
    rw [joined] at moved
    rw [one, two] at printed
    have same : here = own := by
      have lines := congrArg RuntimeError.line (Diagnostic.runtime.inj (Outcome.failed.inj moved))
      cases here <;> cases own <;> simp at lines <;> rfl
    subst same
    exact ⟨fails, failed, v, Prod.ext ((congrArg Prod.fst joined).trans moved) (by rw [joined]),
      printed.trans (by decide +kernel)⟩
  exact ⟨whole true _ 2 (by decide +kernel) (by decide +kernel) (by decide +kernel),
    whole false _ 3 (by decide +kernel) (by decide +kernel) (by decide +kernel)⟩

end ScopeScript
