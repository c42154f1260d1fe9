import ScopeScript.Proofs.Grammar.Spelled
import ScopeScript.Proofs.Simulation.Session

/-! Static scoping is lexical scoping. The distances noted for a program lead every use of a name
to its binding, in whatever order inputs are given to a session and however they end. -/
namespace ScopeScript

/-- No run faults: the frame that a noted distance leads to is there and binds the name, an
initializer finds its object, and nothing returns from the top level. Operators are told apart when
they are parsed, so evaluation has a rule for every one. -/
theorem runs_never_fault (sink : Sink) (clock : Clock) (inputs : List Input) :
    ∀ report ∈ (Session.start sink clock).reports inputs, ∀ fault,
      report.outcome ≠ .faulted fault :=
  ((Session.start_mirrors sink clock).reports inputs).2

/-- An initializer with noted distances for `this` and its parameter. -/
theorem initializer_never_faults :
    ∃ report ∈ (Session.start {} ⟨fun _ => 0, 0⟩).reports
        [.run 9 "class A { init(x) { this.y = x; } }\nA(nil);"],
      report.outcome = .finished ∧ ∀ fault, report.outcome ≠ .faulted fault := by
  obtain ⟨s, start⟩ : ∃ s, Session.start {} ⟨fun _ => 0, 0⟩ = s := ⟨_, rfl⟩
  obtain ⟨source, text⟩ :
      ∃ source, "class A { init(x) { this.y = x; } }\nA(nil);" = source := ⟨_, rfl⟩
  have finished : (s.run 9 source).1 = .finished := by
    rw [← start, ← text]
    decide +kernel
  have member : ⟨(s.run 9 source).1, (s.run 9 source).2.machine.sink.since s.machine.sink⟩ ∈
      s.reports [.run 9 source] := List.mem_singleton.mpr rfl
  rw [text, start]
  refine ⟨_, member, finished, ?_⟩
  rw [← start] at member ⊢
  exact runs_never_fault {} ⟨fun _ => 0, 0⟩ _ _ member

/-- Every operator in a parsed program is the one that its sign spells. The evaluator has a rule for
each of them, so there is no sign that it cannot deal with. -/
theorem operators_as_signed {nextId next : ExprId} {source : String} {program : List Stmt}
    (parsed : parseSource nextId source = (.ok program, next)) :
    (∀ id op sign operand, .unary id op sign operand ∈ programNodes program →
      sign.text.toList = op.spelling) ∧
    (∀ id op sign left right, .binary id op sign left right ∈ programNodes program →
      sign.text.toList = (InfixOp.binary op).spelling) ∧
    ∀ id op sign left right, .logical id op sign left right ∈ programNodes program →
      sign.text.toList = (InfixOp.logical op).spelling := by
  have spelled := parseSource_nodes_spelled parsed
  exact ⟨fun _ _ _ _ member => spelled _ member, fun _ _ _ _ _ member => spelled _ member,
    fun _ _ _ _ _ member => spelled _ member⟩

/-- Every run prints and ends as it does by lexical scoping. -/
theorem reports_eq_lexical (sink : Sink) (clock : Clock) (inputs : List Input) :
    (Session.start sink clock).reports inputs = (Lexical.Session.start sink clock).reports inputs :=
  ((Session.start_mirrors sink clock).reports inputs).1

end ScopeScript
