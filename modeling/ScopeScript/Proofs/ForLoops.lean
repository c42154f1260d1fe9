import ScopeScript.Proofs.Frames.Focus
import ScopeScript.Proofs.Lexical.ForLoop
import ScopeScript.Proofs.Parse.Numbering
import ScopeScript.Proofs.Restored
import ScopeScript.Proofs.Simulation.Moments

/-! What a `for` means. The parser turns it into blocks and a loop. Wherever that tree is run in a
program that passed the static checks, it comes to what the `for` itself comes to, and the frame
around it is the current one again. -/
namespace ScopeScript
open Lexical (Scope)

variable {σ α β : Type} {w : World} {m : Machine} {l : Lexical.Machine} {c : Context} {f : FrameId}
  {scope : Scope} {p : ForParts} {id : ExprId}

/-! The parser. -/

/-- Reads the clauses and the body of a `for`. -/
def Parse.forParts (bound : Nat) (statement : Parse Stmt) : Parse ForParts := do
  let _ ← expect (.symbol .leftParen) .forOpen
  let first ← forFirst bound
  let condition ← optionalBefore (.symbol .semicolon) bound
  let _ ← expect (.symbol .semicolon) .forConditionEnd
  let step ← optionalBefore (.symbol .rightParen) bound
  let _ ← expect (.symbol .rightParen) .forClose
  let body ← statement
  return ⟨first, condition, step, body⟩

/-- The tree of clauses that were read. Only a missing condition takes a number. -/
def Parse.forTree (p : ForParts) : Parse Stmt :=
  match p.condition with
  | some _ => return p.tree 0
  | none => return p.tree (← freshId)

theorem Parse.forStatement_eq (bound : Nat) (statement : Parse Stmt) :
    forStatement bound statement = forParts bound statement >>= forTree := by
  simp only [forStatement, forParts, bind_assoc, pure_bind]
  congr 1; funext _
  congr 1; funext first
  congr 1; funext condition
  congr 1; funext _
  congr 1; funext step
  congr 1; funext _
  congr 1; funext body
  cases condition <;> rfl

theorem Parse.forParts_body {bound : Nat} {at' behind : Cursor}
    (read : forParts bound (Parse.statement bound) at' = .ok p behind) :
    p.body.isDeclaration = false := by
  obtain ⟨_, _, _, read⟩ := bind_eq_ok.mp read
  obtain ⟨first, _, _, read⟩ := bind_eq_ok.mp read
  obtain ⟨condition, _, _, read⟩ := bind_eq_ok.mp read
  obtain ⟨_, _, _, read⟩ := bind_eq_ok.mp read
  obtain ⟨step, _, _, read⟩ := bind_eq_ok.mp read
  obtain ⟨_, _, _, read⟩ := bind_eq_ok.mp read
  obtain ⟨body, _, parsed, read⟩ := bind_eq_ok.mp read
  cases read
  exact ((draws_statement_declaration bound).1.shaped _ _ _ parsed).1

/-! Steps with enough fuel. -/

/-- What a step comes to if it has enough fuel. -/
def Settles (p : Nat → EStateM Stop σ α) (s : σ) (r : EStateM.Result Stop σ α) : Prop :=
  ∃ fuel, p fuel s = r ∧ ∀ t, r ≠ .error .exhausted t

theorem Lexical.Below.settles {p q : Nat → Lexical.Eval α} {more : Nat → Nat}
    (below : ∀ fuel, Below (p fuel) (q (more fuel))) {r : EStateM.Result Stop Lexical.Machine α}
    (settles : Settles p l r) : Settles q l r := by
  obtain ⟨fuel, ran, enough⟩ := settles
  rcases below fuel l with ⟨l', spent⟩ | same
  · exact absurd (ran.symm.trans spent) (enough l')
  · exact ⟨more fuel, same.trans ran, enough⟩

theorem Lexical.settles_tree (branch : p.body.isDeclaration = false)
    (agrees : (p.tree id).Scoped w.notes c) {r : EStateM.Result Stop Lexical.Machine Lexical.Flow} :
    Settles (fun fuel => Lexical.execute fuel scope (p.tree id)) l r ↔
      Settles (fun fuel => Lexical.runFor fuel scope p) l r := by
  constructor
  · exact Below.settles fun fuel => tree_below branch agrees fuel scope
  · exact Below.settles fun fuel => below_tree branch agrees fuel scope

/-- Results that are the same to a program have both come about or not. -/
theorem Meets.exhausted {opened : Option FrameId} {R : World → α → β → Prop}
    {r : EStateM.Result Stop Machine α} {r' : EStateM.Result Stop Lexical.Machine β}
    (meets : Meets opened w R r r') :
    (∀ t, r ≠ .error .exhausted t) ↔ ∀ t, r' ≠ .error .exhausted t := by
  cases r with
  | ok a m =>
    cases r' with
    | ok b l => simp
    | error _ _ => exact meets.elim
  | error stop m =>
    cases r' with
    | ok b l => exact meets.elim
    | error other l =>
      obtain ⟨rfl, _⟩ := meets
      simp

/-- A step that does not run out of fuel and meets another one does not break off. -/
theorem Meets.returns {opened : Option FrameId} {R : World → α → β → Prop} {stop : Stop}
    {r' : EStateM.Result Stop Lexical.Machine β} (meets : Meets opened w R (.error stop m) r')
    (enough : stop ≠ .exhausted) : stop.breaksOff = false := by
  cases r' with
  | ok b l => exact meets.elim
  | error other l =>
    obtain ⟨_, noFault, _⟩ := meets
    cases stop with
    | error _ | output _ => rfl
    | fault fault => exact absurd rfl (noFault fault)
    | exhausted => contradiction

/-! The tree on the machine with frames. -/

namespace ForParts

/-- The tree of a `for` in a frame comes to what the `for` comes to in the scope of the frame: the
same output, the same flow or error, and the same values in all frames and objects that there were.
The frame is the current one again behind it. -/
structure Kept (p : ForParts) (id : ExprId) (f : FrameId) (m : Machine) (w : World)
    (l : Lexical.Machine) (c : Context) (scope : Scope) : Prop where
  mirrors : w.Mirrors m l
  current : w.Current c.scopes f scope
  tree : ∀ r, Settles (fun fuel => execute fuel f (p.tree id)) m r → ∃ r',
    Settles (fun fuel => Lexical.runFor fuel scope p) l r' ∧
      Meets none w (SameFlow c.inFunction c.scopes f) r r'
  loop : ∀ r', Settles (fun fuel => Lexical.runFor fuel scope p) l r' → ∃ r,
    Settles (fun fuel => execute fuel f (p.tree id)) m r ∧
      Meets none w (SameFlow c.inFunction c.scopes f) r r'
  restored : ∀ r, Settles (fun fuel => execute fuel f (p.tree id)) m r → ∃ fuel,
    Focus.onMachine (Focus.execute fuel (p.tree id) ⟨m, f, globalFrame⟩) = r ∧
      (Focus.behind (Focus.execute fuel (p.tree id) ⟨m, f, globalFrame⟩)).current = f

theorem isDeclaration_tree (p : ForParts) (id : ExprId) : (p.tree id).isDeclaration = false := by
  unfold tree Stmt.forLoop
  cases p.first <;> rfl

theorem after_tree (p : ForParts) (id : ExprId) (s : Scopes) : s.after (p.tree id) = s := by
  unfold tree Stmt.forLoop
  cases p.first <;> rfl

/-- The tree does on both machines the same. -/
theorem tree_meets (mirrors : w.Mirrors m l) (current : w.Current c.scopes f scope)
    (agrees : (p.tree id).Scoped w.notes c) (fuel : Nat) :
    Meets none w (SameFlow c.inFunction c.scopes f) (execute fuel f (p.tree id) m)
      (Lexical.execute fuel scope (p.tree id) l) := by
  have sim := (evaluators_agree fuel).2.1 (p.tree id) current agrees
  rw [Stmt.opens, if_neg (by simp [isDeclaration_tree]), after_tree] at sim
  exact sim m l mirrors

theorem kept (branch : p.body.isDeclaration = false) (mirrors : w.Mirrors m l)
    (current : w.Current c.scopes f scope) (agrees : (p.tree id).Scoped w.notes c) :
    p.Kept id f m w l c scope where
  mirrors := mirrors
  current := current
  tree := by
    rintro _ ⟨fuel, rfl, enough⟩
    have meets := tree_meets mirrors current agrees fuel
    exact ⟨_, (Lexical.settles_tree branch agrees).mp ⟨fuel, rfl, meets.exhausted.mp enough⟩, meets⟩
  loop := by
    intro r' settles
    obtain ⟨fuel, rfl, enough⟩ := (Lexical.settles_tree branch agrees).mpr settles
    have meets := tree_meets mirrors current agrees fuel
    exact ⟨_, ⟨fuel, rfl, meets.exhausted.mpr enough⟩, meets⟩
  restored := by
    rintro _ ⟨fuel, rfl, enough⟩
    have meets := tree_meets mirrors current agrees fuel
    have follows := (Focus.evaluation_follows fuel).2.1 (p.tree id) ⟨m, f, globalFrame⟩ rfl
    refine ⟨fuel, ?_⟩
    dsimp only at follows enough ⊢
    generalize Focus.execute fuel (p.tree id) ⟨m, f, globalFrame⟩ = left at follows ⊢
    generalize execute fuel f (p.tree id) m = right at follows meets enough ⊢
    cases follows with
    | ok a m' => exact ⟨rfl, rfl⟩
    | stopped stop m' => exact ⟨rfl, rfl⟩
    | brokeOff off r' =>
      -- code that passed the static checks does not fault
      have back := meets.returns fun spent => enough r'.machine (by rw [spent])
      rw [off] at back
      contradiction

end ForParts

/-- A `for` means what its clauses say. The parser reads clauses and a body and turns them into a
tree. Whenever a run after any history is about to run such a tree, the tree comes to what the `for`
itself comes to in the scope around it. -/
theorem for_trees_mean_loops (sink : Sink) (clock : Clock) (history : List Input) (fuel : Nat)
    (source : String) :
    Traced.Faithful ∧
    (∀ bound statement, Parse.forStatement bound statement =
      Parse.forParts bound statement >>= Parse.forTree) ∧
    (∀ bound start p behind, Parse.forParts bound (Parse.statement bound) start = .ok p behind →
      p.body.isDeclaration = false) ∧
    ∀ moment ∈ ((Session.start sink clock).after history).trace fuel source,
      ∀ (f : FrameId) (p : ForParts) (id : ExprId), moment.act = .statement f (p.tree id) →
        p.body.isDeclaration = false →
        ∃ w l c scope, p.Kept id f moment.machine w l c scope := by
  refine ⟨Traced.faithful, Parse.forStatement_eq, fun _ _ _ _ => Parse.forParts_body, ?_⟩
  intro moment member f p id told branch
  have mirrors := (Session.start_mirrors sink clock).after history
  obtain ⟨w, l, c, scope, machines, current, agrees⟩ :=
    mirrors.trace fuel source moment member f (p.tree id) told
  exact ⟨w, l, c, scope, ForParts.kept branch machines current agrees⟩

/-- The clauses of a `for` that has all of them and a block for its body, read off its tree. -/
def Stmt.fullFor? : Stmt → Option ForParts
  | .block [.var name initial, .whileLoop condition (.block [.block body, .expression step])] =>
    some ⟨some (.var name initial), some condition, some step, .block body⟩
  | _ => none

theorem Stmt.eq_tree_of_fullFor? {s : Stmt} (read : s.fullFor? = some p) :
    s = p.tree 0 ∧ p.first.isSome ∧ p.condition.isSome ∧ p.step.isSome ∧
      p.body.isDeclaration = false := by
  unfold fullFor? at read
  split at read
  · cases read
    exact ⟨rfl, rfl, rfl, rfl, rfl⟩
  · contradiction

/-- A `for` whose body declares another variable of the name that its clauses count with. It goes
round twice. -/
theorem shadowed_counter_keeps_counting :
    let s := Session.start {} ⟨fun _ => 0, 0⟩
    let source := "for(var i=0;i<2;i=i+1){var i=9;print i;}"
    (s.run 9 source).1 = .finished ∧
      (s.run 9 source).2.machine.sink.written = "9\n9\n".toUTF8 ∧
      ∃ moment ∈ s.trace 9 source, ∃ (p : ForParts) (id : ExprId),
        moment.act = .statement globalFrame (p.tree id) ∧
        p.first.isSome ∧ p.condition.isSome ∧ p.step.isSome ∧ p.body.isDeclaration = false ∧
        ∃ w l c scope, p.Kept id globalFrame moment.machine w l c scope := by
  refine ⟨by decide +kernel, by decide +kernel, ?_⟩
  obtain ⟨s, start⟩ : ∃ s, Session.start {} ⟨fun _ => 0, 0⟩ = s := ⟨_, rfl⟩
  obtain ⟨source, text⟩ : ∃ source, "for(var i=0;i<2;i=i+1){var i=9;print i;}" = source := ⟨_, rfl⟩
  obtain ⟨result, passed⟩ :
      ∃ result, checkSource s.machine.globalNames s.nextId source = result := ⟨_, rfl⟩
  have read : result.1.toOption.map (fun checked =>
      checked.program.map (·.fullFor?.isSome)) = some [true] := by
    rw [← passed, ← start, ← text]
    decide +kernel
  obtain ⟨_ | ⟨program, entries⟩, next⟩ := result
  · contradiction
  obtain ⟨tree, rfl, full⟩ := List.map_eq_singleton_iff.mp (Option.some.inj read)
  obtain ⟨p, found⟩ := Option.isSome_iff_exists.mp full
  obtain ⟨rfl, first, condition, step, branch⟩ := Stmt.eq_tree_of_fullFor? found
  have kept := (for_trees_mean_loops {} ⟨fun _ => 0, 0⟩ [] 9 source).2.2.2
  rw [start, Session.after] at kept
  rw [start, text]
  have begun := Traced.faithful.statementTold 8 globalFrame (p.tree 0) (s.machine.note entries)
  have member : ⟨.statement globalFrame (p.tree 0), s.machine.note entries⟩ ∈ s.trace 9 source := by
    rw [Session.trace_of_checked passed]
    exact List.mem_append_left _ (List.mem_append_left _ (List.mem_of_mem_head? begun))
  exact ⟨_, member, p, 0, rfl, first, condition, step, branch,
    kept _ member globalFrame p 0 rfl branch⟩

end ScopeScript
