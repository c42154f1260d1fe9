import ScopeScript.Proofs.Checks
import ScopeScript.Proofs.Lexical.Natural
import ScopeScript.Proofs.Lexical.Session
import ScopeScript.Proofs.Parse.Carry
import ScopeScript.Proofs.Scope.Relabel

/-! Lexical sessions that hand out other numbers. A source is parsed to the same tree up to the
numbers of its nodes, and these do not matter to a run. -/
namespace ScopeScript

/-- Numbers from `base` on become numbers from `target` on. -/
def Relabel.renumber (base target : ExprId) : Relabel :=
  ⟨fun id => id - base + target, fun line => line⟩

theorem parseTokens_renumber {ts : List Token} {base next : ExprId} {program : List Stmt}
    (parsed : parseTokens ts base = ⟨program, [], next⟩) (target : ExprId) :
    parseTokens ts target =
      ⟨Stmt.relabelEach (.renumber base target) program, [], next - base + target⟩ := by
  let v : Carrier := ⟨base, target, fun line => line, [], (Cursor.ofTokens ts base).endLine, nofun⟩
  have moved : v.cursor (Cursor.ofTokens ts base) = Cursor.ofTokens ts target := by
    have image : v.cursor (Cursor.ofTokens ts base) =
        ⟨(Cursor.ofTokens ts base).rest.map id ++ [], (Cursor.ofTokens ts base).endLine,
          base - base + target⟩ := rfl
    rw [image, List.map_id, List.append_nil, Nat.sub_self, Nat.zero_add]
    rfl
  have clean := congrArg Parsed.errors parsed
  have carried := parseFrom_carry_whole (v := v) rfl (Nat.le_refl _) (Nat.le_refl _)
    (Nat.le_refl _) clean
  rw [moved] at carried
  unfold parseTokens at parsed ⊢
  rw [parsed] at carried
  exact carried

/-- A source that passes the checks also does when its nodes are numbered from another number
on. -/
theorem checkSource_renumber {globals : List String} {base next : ExprId} {source : String}
    {checked : Checked} (passed : checkSource globals base source = (.ok checked, next))
    (target : ExprId) :
    ∃ entries, checkSource globals target source =
      (.ok ⟨Stmt.relabelEach (.renumber base target) checked.program, entries⟩,
        next - base + target) := by
  obtain ⟨parsed, resolved⟩ := checkSource_eq_ok.mp passed
  obtain ⟨lexed, parsed⟩ := parseSource_eq_ok.mp parsed
  obtain ⟨entries, resolved'⟩ := resolve_relabel (.renumber base target) resolved
  exact ⟨entries, checkSource_eq_ok.mpr
    ⟨parseSource_eq_ok.mpr ⟨lexed, parseTokens_renumber parsed target⟩, resolved'⟩⟩

theorem Stop.relabel_unnumbered (stop : Stop) : stop.relabel .unnumbered = stop := by
  cases stop <;> rfl

namespace Lexical

/-- Sessions that differ in the numbers of nodes only. -/
def Session.Alike (s t : Session) : Prop :=
  t.machine.relabel .unnumbered = s.machine.relabel .unnumbered

variable {s t : Session}

theorem Session.Alike.sink_eq (alike : s.Alike t) : t.machine.sink = s.machine.sink := by
  have same := congrArg Machine.sink alike
  rwa [Machine.relabel_sink, Machine.relabel_sink] at same

theorem Session.Alike.globalNames_eq (alike : s.Alike t) :
    t.machine.globalNames = s.machine.globalNames := by
  have same := congrArg Machine.globalNames alike
  rwa [Machine.relabel_globalNames, Machine.relabel_globalNames] at same

/-- Programs that differ in the numbers of nodes only, on machines that do. -/
theorem interpret_unnumbered (fuel : Nat) {program other : List Stmt} {m l : Machine}
    (programs : Stmt.relabelEach .unnumbered other = Stmt.relabelEach .unnumbered program)
    (machines : l.relabel .unnumbered = m.relabel .unnumbered) :
    relabelResult .unnumbered id (interpret fuel other l) =
      relabelResult .unnumbered id (interpret fuel program m) := by
  rw [← interpret_natural .unnumbered fuel other l,
    ← interpret_natural .unnumbered fuel program m, programs, machines]

/-- A run that passes the checks ends alike. -/
theorem Session.Alike.run (alike : s.Alike t) {fuel : Nat} {source : String}
    (passed : ∀ errors, (s.run fuel source).1 ≠ .rejected errors) :
    (t.run fuel source).1 = (s.run fuel source).1 ∧
      (s.run fuel source).2.Alike (t.run fuel source).2 := by
  unfold Session.run at passed ⊢
  rw [alike.globalNames_eq]
  cases found : checkSource s.machine.globalNames s.nextId source with
  | mk result next =>
    cases result with
    | error errors =>
      rw [found] at passed
      exact absurd rfl (passed errors)
    | ok checked =>
      obtain ⟨entries, again⟩ := checkSource_renumber found t.nextId
      have programs : Stmt.relabelEach .unnumbered
          (Stmt.relabelEach (.renumber s.nextId t.nextId) checked.program) =
          Stmt.relabelEach .unnumbered checked.program :=
        Stmt.relabelEach_relabelEach _ _ _
      have same := interpret_unnumbered fuel programs alike
      rw [again]
      dsimp only
      generalize interpret fuel checked.program s.machine = left at same
      generalize interpret fuel _ t.machine = right at same
      cases left with
      | ok _ m =>
        cases right with
        | ok _ l => exact ⟨rfl, (EStateM.Result.ok.inj same).2⟩
        | error _ _ => cases same
      | error stop m =>
        cases right with
        | ok _ _ => cases same
        | error other l =>
          obtain ⟨stops, machines⟩ := EStateM.Result.error.inj same
          rw [Stop.relabel_unnumbered, Stop.relabel_unnumbered] at stops
          exact ⟨congrArg Outcome.ofStop stops, machines⟩

end Lexical
end ScopeScript
