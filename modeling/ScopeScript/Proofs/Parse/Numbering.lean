import ScopeScript.Parse.Program
import ScopeScript.Proofs.Tree.Shape

/-! The numbers in a parsed tree. A parser hands out numbers in order, so all nodes of what it
builds have numbers of their own, and none that was handed out before. -/
namespace ScopeScript

/-- Different numbers from `low` on and below `high`. -/
structure Drawn (low high : Nat) (ids : List Nat) : Prop where
  le : low ≤ high
  nodup : ids.Nodup
  range : ∀ id ∈ ids, low ≤ id ∧ id < high

namespace Drawn
variable {low middle high : Nat} {ids others : List Nat}

theorem nil (n : Nat) : Drawn n n [] := ⟨Nat.le_refl n, .nil, nofun⟩

theorem append (first : Drawn low middle ids) (second : Drawn middle high others) :
    Drawn low high (ids ++ others) where
  le := Nat.le_trans first.le second.le
  nodup := by
    refine List.nodup_append.mpr ⟨first.nodup, second.nodup, fun a left b right => ?_⟩
    have below := (first.range a left).2
    have above := (second.range b right).1
    omega
  range id member := by
    have low_middle := first.le
    have middle_high := second.le
    rcases List.mem_append.mp member with member | member
    · have := first.range id member
      omega
    · have := second.range id member
      omega

theorem fresh (n : Nat) : Drawn n (n + 1) [n] where
  le := Nat.le_succ n
  nodup := by simp
  range id member := by
    rw [List.mem_singleton.mp member]
    omega

theorem perm (drawn : Drawn low high ids) (same : ids.Perm others) : Drawn low high others :=
  ⟨drawn.le, same.nodup drawn.nodup, fun id member => drawn.range id (same.mem_iff.mpr member)⟩

theorem sublist (drawn : Drawn low high ids) (fewer : others.Sublist ids) :
    Drawn low high others :=
  ⟨drawn.le, drawn.nodup.sublist fewer, fun id member => drawn.range id (fewer.subset member)⟩

end Drawn

/-- Numbers from `low` on and below `high`, each larger than all before it. -/
structure Rising (low high : Nat) (ids : List Nat) : Prop where
  le : low ≤ high
  sorted : ids.Pairwise (· < ·)
  range : ∀ id ∈ ids, low ≤ id ∧ id < high

/-- What may be said about numbers that are handed out between two counts: later ones are put
behind earlier ones, and some may be given up. -/
class Numbering (R : Nat → Nat → List Nat → Prop) : Prop where
  nil : ∀ n, R n n []
  fresh : ∀ n, R n (n + 1) [n]
  append : ∀ {low middle high : Nat} {ids others : List Nat},
    R low middle ids → R middle high others → R low high (ids ++ others)
  sublist : ∀ {low high : Nat} {ids others : List Nat},
    R low high ids → others.Sublist ids → R low high others

/-- The node that is built last gets the next number. -/
theorem Numbering.node {R : Nat → Nat → List Nat → Prop} [Numbering R] {low high : Nat}
    {ids : List Nat} (numbers : R low high ids) : R low (high + 1) (ids ++ [high]) :=
  append numbers (fresh high)

instance : Numbering Drawn where
  nil := .nil
  fresh := .fresh
  append := .append
  sublist := .sublist

instance : Numbering Rising where
  nil n := ⟨Nat.le_refl n, .nil, nofun⟩
  fresh n := by
    refine ⟨Nat.le_succ n, List.pairwise_singleton _ n, fun id member => ?_⟩
    rw [List.mem_singleton.mp member]
    omega
  append {low middle high ids others} first second := by
    have low_middle := first.le
    have middle_high := second.le
    refine ⟨by omega, List.pairwise_append.mpr ⟨first.sorted, second.sorted, ?_⟩, ?_⟩
    · intro a left b right
      have below := (first.range a left).2
      have above := (second.range b right).1
      omega
    · intro id member
      rcases List.mem_append.mp member with member | member
      · have := first.range id member
        omega
      · have := second.range id member
        omega
  sublist rising fewer := by
    refine ⟨rising.le, rising.sorted.sublist fewer, fun id member => ?_⟩
    exact rising.range id (fewer.subset member)

namespace Parse
variable {α β : Type} {p : Parse α} {q : α → Parse β} {c c' : Cursor}

theorem bind_eq_ok {b : β} :
    (p >>= q) c = .ok b c' ↔ ∃ a d, p c = .ok a d ∧ q a d = .ok b c' := by
  simp only [Bind.bind, EStateM.bind]
  cases p c with
  | error e d => simp
  | ok a d =>
    constructor
    · exact fun h => ⟨a, d, rfl, h⟩
    · rintro ⟨_, _, ⟨⟩, h⟩
      exact h

/-- The cursor that a parser leaves behind, with or without an error. -/
def behind (p : Parse α) (c : Cursor) : Cursor :=
  match p c with
  | .ok _ c' | .error _ c' => c'

theorem behind_bind (p : Parse α) (q : α → Parse β) (c : Cursor) :
    behind (p >>= q) c = match p c with
      | .ok a d => behind (q a) d
      | .error _ d => d := by
  simp only [behind, Bind.bind, EStateM.bind]
  cases p c <;> rfl

/-- A parser that builds no nodes. -/
def Still (p : Parse α) : Prop := ∀ c, (behind p c).nextId = c.nextId

theorem Still.bind (first : Still p) (next : ∀ a, Still (q a)) : Still (p >>= q) := by
  intro c
  have here := first c
  rw [behind_bind]
  unfold behind at here
  cases found : p c with
  | ok a d => exact (next a d).trans (by simpa only [found] using here)
  | error e d => simpa only [found] using here

theorem still_pure (a : α) : Still (pure a : Parse α) := fun _ => rfl

theorem still_fail (cause : ParseCause) : Still (fail cause : Parse α) := fun _ => rfl

theorem still_peek : Still peek := fun _ => rfl

theorem still_takeIf (select : Kind → Option α) : Still (takeIf select) := by
  intro c
  simp only [behind, takeIf]
  cases c.rest with
  | nil => rfl
  | cons t rest =>
    dsimp only
    cases select t.kind <;> rfl

theorem still_take? (kind : Kind) : Still (take? kind) :=
  (still_takeIf _).bind fun _ => still_pure _

theorem still_accept (kind : Kind) : Still (accept kind) :=
  (still_take? kind).bind fun _ => still_pure _

theorem still_expect (kind : Kind) (cause : ParseCause) : Still (expect kind cause) := by
  apply (still_take? kind).bind
  intro found
  cases found with
  | none => exact still_fail cause
  | some l => exact still_pure l

/-- A parser that has numbers `before` at hand and builds something with the numbers `ids`:
what is said of the numbers stays true, and what is built has the right shape. Numbers are never
taken back, also by an error. -/
structure Draws (R : Nat → Nat → List Nat → Prop) (before : List ExprId) (p : Parse α)
    (ids : α → List ExprId) (shape : α → Prop) : Prop where
  counts : ∀ c, c.nextId ≤ (behind p c).nextId
  shaped : ∀ c a c', p c = .ok a c' → shape a
  drawn : ∀ low c a c', p c = .ok a c' → R low c.nextId before → R low c'.nextId (ids a)

variable {before : List ExprId} {ids : α → List ExprId} {shape : α → Prop}
  {ids' : β → List ExprId} {shape' : β → Prop} {R : Nat → Nat → List Nat → Prop}

theorem Draws.bind (first : Draws R before p ids shape)
    (next : ∀ a, shape a → Draws R (ids a) (q a) ids' shape') :
    Draws R before (p >>= q) ids' shape' where
  counts c := by
    have here := first.counts c
    rw [behind_bind]
    unfold behind at here
    cases found : p c with
    | ok a d =>
      simp only [found] at here
      exact Nat.le_trans here ((next a (first.shaped c a d found)).counts d)
    | error e d => simpa only [found] using here
  shaped c b c' ok := by
    obtain ⟨a, d, left, right⟩ := bind_eq_ok.mp ok
    exact (next a (first.shaped c a d left)).shaped d b c' right
  drawn low c b c' ok drawn := by
    obtain ⟨a, d, left, right⟩ := bind_eq_ok.mp ok
    have next := next a (first.shaped c a d left)
    exact next.drawn low d b c' right (first.drawn low c a d left drawn)

theorem Still.draws (still : Still p) : Draws R before p (fun _ => before) fun _ => True where
  counts c := Nat.le_of_eq (still c).symm
  shaped _ _ _ _ := trivial
  drawn low c a c' ok drawn := by
    have same := still c
    simp only [behind, ok] at same
    rwa [same]

theorem Draws.imp {shape' : α → Prop} (draws : Draws R before p ids shape)
    (weaker : ∀ a, shape a → shape' a) : Draws R before p ids shape' where
  counts := draws.counts
  shaped c a c' ok := weaker a (draws.shaped c a c' ok)
  drawn := draws.drawn

theorem draws_fail (cause : ParseCause) : Draws R before (fail cause) ids shape where
  counts _ := Nat.le_refl _
  shaped := nofun
  drawn := nofun

theorem draws_pure {a : α} (same : ids a = before) (good : shape a) :
    Draws R before (pure a) ids shape where
  counts _ := Nat.le_refl _
  shaped := by
    rintro _ _ _ ⟨⟩
    exact good
  drawn := by
    rintro low c _ _ ⟨⟩ drawn
    rwa [same]

variable [Numbering R]

/-- A part that is parsed by itself. -/
theorem Draws.behind (alone : Draws R [] p ids shape) (before : List ExprId) :
    Draws R before p (fun a => before ++ ids a) shape where
  counts := alone.counts
  shaped := alone.shaped
  drawn _ c a c' ok drawn :=
    Numbering.append drawn (alone.drawn c.nextId c a c' ok (Numbering.nil _))

/-- Numbers at hand may be given up. -/
theorem Draws.drop {fewer : List ExprId} (draws : Draws R fewer p ids shape)
    (sublist : fewer.Sublist before) : Draws R before p ids shape where
  counts := draws.counts
  shaped := draws.shaped
  drawn low c a c' ok drawn := draws.drawn low c a c' ok (Numbering.sublist drawn sublist)

theorem draws_freshId : Draws R before freshId (fun id => before ++ [id]) fun _ => True where
  counts _ := Nat.le_succ _
  shaped _ _ _ _ := trivial
  drawn := by
    rintro low c _ _ ⟨⟩ drawn
    exact Numbering.node drawn

/-- Builds a node behind its parts. -/
theorem draws_node {node : ExprId → α} (same : ∀ id, ids (node id) = before ++ [id])
    (good : ∀ id, shape (node id)) : Draws R before (return node (← freshId)) ids shape :=
  draws_freshId.bind fun id _ => draws_pure (same id) (good id)

/-- Items with commas between them. -/
theorem draws_separated {item : Parse α} (items : Draws R [] item ids shape)
    (overflow : ParseCause) (room : Nat) :
    Draws R [] (separated item overflow room) (fun as => as.flatMap ids)
      fun as => ∀ a ∈ as, shape a := by
  induction room with
  | zero => exact draws_fail overflow
  | succ room ih =>
    apply items.bind
    intro first good
    apply (still_accept _).draws.bind
    intro more _
    cases more with
    | false => exact draws_pure (by simp) (by simpa using good)
    | true =>
      apply (ih.behind _).bind
      intro rest others
      exact draws_pure (by simp) (by simpa using ⟨good, others⟩)

theorem draws_parenthesized {item : Parse α} (items : Draws R [] item ids shape)
    (overflow unclosed : ParseCause) :
    Draws R [] (parenthesized item overflow unclosed) (fun r => r.1.flatMap ids)
      fun r => ∀ a ∈ r.1, shape a := by
  have closed (as : List α) (good : ∀ a ∈ as, shape a) :
      Draws R (as.flatMap ids) (do return (as, ← expect (.symbol .rightParen) unclosed))
        (fun r => r.1.flatMap ids) fun r => ∀ a ∈ r.1, shape a :=
    (still_expect _ unclosed).draws.bind fun _ _ => draws_pure rfl good
  apply still_peek.draws.bind
  intro next _
  dsimp only
  split
  · exact (draws_pure (a := []) rfl nofun).bind closed
  · exact (draws_separated items overflow listLimit).bind closed

/-! Expressions. -/

variable {expression : Parse Expr}

/-- Expressions may have any shape. -/
abbrev Any : Expr → Prop := fun _ => True

theorem draws_primary (inner : Draws R [] expression Expr.ids Any) :
    Draws R [] (primary expression) Expr.ids Any := by
  apply (still_takeIf _).draws.bind
  intro start _
  match start with
  | none => exact draws_fail _
  | some (.literal _, _) | some (.this, _) | some (.name, _) =>
    exact draws_node (fun _ => rfl) fun _ => trivial
  | some (.group, _) =>
    apply inner.bind
    intro e _
    apply (still_expect _ _).draws.bind
    intro _ _
    exact draws_node (fun _ => rfl) fun _ => trivial

theorem draws_calls (inner : Draws R [] expression Expr.ids Any) (bound : Nat) (subject : Expr) :
    Draws R subject.ids (calls expression bound subject) Expr.ids Any := by
  induction bound generalizing subject with
  | zero => exact draws_pure rfl trivial
  | succ bound ih =>
    apply (still_accept _).draws.bind
    intro called _
    cases called with
    | true =>
      apply ((draws_parenthesized inner _ _).behind _).bind
      intro r _
      apply draws_freshId.bind
      intro id _
      have same : (Expr.call id subject r.1 r.2).ids =
          subject.ids ++ r.1.flatMap Expr.ids ++ [id] := by
        rw [Expr.ids, Expr.idsEach_eq_flatMap, List.append_assoc]
      rw [← same]
      exact ih _
    | false =>
      apply (still_accept _).draws.bind
      intro read _
      cases read with
      | true =>
        apply (still_expect _ _).draws.bind
        intro property _
        exact draws_freshId.bind fun id _ => ih (.get id subject property)
      | false => exact draws_pure rfl trivial

theorem still_signs (bound : Nat) : Still (signs bound) := by
  induction bound with
  | zero => exact still_pure _
  | succ bound ih =>
    apply (still_takeIf _).bind
    intro sign
    cases sign with
    | none => exact still_pure _
    | some sign => exact ih.bind fun _ => still_pure _

theorem draws_signed (before : List (UnaryOp × Lexeme)) (operand : Expr) :
    Draws R operand.ids (signed before operand) Expr.ids Any := by
  induction before with
  | nil => exact draws_pure rfl trivial
  | cons sign rest ih =>
    exact ih.bind fun inner _ => draws_node (fun _ => rfl) fun _ => trivial

theorem draws_unary (inner : Draws R [] expression Expr.ids Any) (bound : Nat) :
    Draws R [] (unary bound expression) Expr.ids Any := by
  apply (still_signs _).draws.bind
  intro before _
  apply (draws_primary inner).bind
  intro subject _
  exact (draws_calls inner bound subject).bind fun operand _ => draws_signed before operand

theorem draws_chainFrom {operand : Parse Expr} (operands : Draws R [] operand Expr.ids Any)
    (level : Level) (bound : Nat) (left : Expr) :
    Draws R left.ids (chainFrom level operand bound left) Expr.ids Any := by
  induction bound generalizing left with
  | zero => exact draws_pure rfl trivial
  | succ bound ih =>
    apply (still_takeIf level).draws.bind
    intro found _
    match found with
    | none => exact draws_pure rfl trivial
    | some (op, sign) =>
      apply (operands.behind _).bind
      intro right _
      apply draws_freshId.bind
      intro id _
      have same : (op.node id sign left right).ids = left.ids ++ right.ids ++ [id] := by
        cases op <;> simp [InfixOp.node, Expr.ids]
      rw [← same]
      exact ih _

theorem draws_operation (inner : Draws R [] expression Expr.ids Any) (bound : Nat) :
    Draws R [] (operation bound expression) Expr.ids Any := by
  unfold operation
  induction Level.all with
  | nil => exact draws_unary inner bound
  | cons level levels ih => exact ih.bind fun left _ => draws_chainFrom ih level bound left

theorem draws_assignment (inner : Draws R [] expression Expr.ids Any) (bound : Nat) :
    Draws R [] (assignment bound expression) Expr.ids Any := by
  apply (draws_operation inner bound).bind
  intro target _
  apply (still_take? _).draws.bind
  intro sign _
  cases sign with
  | none => exact draws_pure rfl trivial
  | some sign =>
    apply (inner.behind _).bind
    intro value _
    -- the node of the target itself is given up
    cases target with
    | var id name =>
      have node : Draws R value.ids (do return Expr.assign (← freshId) name value) Expr.ids Any :=
        draws_node (fun _ => rfl) fun _ => trivial
      exact node.drop (List.sublist_cons_self id value.ids)
    | get id object property =>
      have node : Draws R (object.ids ++ value.ids)
          (do return Expr.set (← freshId) object property value) Expr.ids Any :=
        draws_node (fun _ => by simp [Expr.ids]) fun _ => trivial
      exact node.drop ((List.sublist_append_left object.ids [id]).append_right value.ids)
    | literal _ _ | group _ _ | this _ _ | assign _ _ _ | unary _ _ _ _ | binary _ _ _ _ _
    | logical _ _ _ _ _ | call _ _ _ _ | set _ _ _ _ =>
      exact ⟨fun _ => Nat.le_refl _, nofun, nofun⟩

theorem draws_expression (bound : Nat) : Draws R [] (Parse.expression bound) Expr.ids Any := by
  induction bound with
  | zero => exact draws_fail _
  | succ bound ih => exact draws_assignment ih bound

/-! Statements. -/

theorem draws_optionalBefore (ending : Kind) (bound : Nat) :
    Draws Drawn [] (optionalBefore ending bound) idsOptional fun _ => True := by
  apply still_peek.draws.bind
  intro next _
  split
  · exact draws_pure rfl trivial
  · exact (draws_expression bound).bind fun e _ => draws_pure rfl trivial

/-- A statement that may stand as a branch. -/
abbrev Branch : Stmt → Prop := fun s => s.isDeclaration = false ∧ s.Ranked

theorem draws_expressionStatement (bound : Nat) :
    Draws Drawn [] (expressionStatement bound) Stmt.ids Branch := by
  apply (draws_expression bound).bind
  intro e _
  exact (still_expect _ _).draws.bind fun _ _ => draws_pure rfl ⟨rfl, trivial⟩

theorem draws_printStatement (bound : Nat) :
    Draws Drawn [] (printStatement bound) Stmt.ids Branch := by
  apply (draws_expression bound).bind
  intro e _
  exact (still_expect _ _).draws.bind fun _ _ => draws_pure rfl ⟨rfl, trivial⟩

theorem draws_returnStatement (bound : Nat) (keyword : Lexeme) :
    Draws Drawn [] (returnStatement bound keyword) Stmt.ids Branch := by
  apply (draws_optionalBefore _ bound).bind
  intro e _
  exact (still_expect _ _).draws.bind fun _ _ => draws_pure rfl ⟨rfl, trivial⟩

theorem draws_varDeclaration (bound : Nat) :
    Draws Drawn [] (varDeclaration bound) Stmt.ids Stmt.Ranked := by
  apply (still_expect _ _).draws.bind
  intro name _
  apply (still_accept _).draws.bind
  intro given _
  cases given with
  | true =>
    apply (draws_expression bound).bind
    intro e _
    exact (still_expect _ _).draws.bind fun _ _ => draws_pure rfl trivial
  | false => exact (still_expect _ _).draws.bind fun _ _ => draws_pure rfl trivial

variable {statement declaration : Parse Stmt}

theorem draws_ifStatement (inner : Draws Drawn [] statement Stmt.ids Branch) (bound : Nat) :
    Draws Drawn [] (ifStatement bound statement) Stmt.ids Branch := by
  apply (still_expect _ _).draws.bind
  intro _ _
  apply (draws_expression bound).bind
  intro condition _
  apply (still_expect _ _).draws.bind
  intro _ _
  apply (inner.behind _).bind
  intro yes first
  apply (still_accept _).draws.bind
  intro more _
  cases more with
  | true =>
    apply (inner.behind _).bind
    intro no second
    exact draws_pure (by simp [Stmt.ids]) ⟨rfl, first, second⟩
  | false => exact draws_pure rfl ⟨rfl, first⟩

theorem draws_whileStatement (inner : Draws Drawn [] statement Stmt.ids Branch) (bound : Nat) :
    Draws Drawn [] (whileStatement bound statement) Stmt.ids Branch := by
  apply (still_expect _ _).draws.bind
  intro _ _
  apply (draws_expression bound).bind
  intro condition _
  apply (still_expect _ _).draws.bind
  intro _ _
  exact (inner.behind _).bind fun body good => draws_pure rfl ⟨rfl, good⟩

/-- The numbers of a part that may be missing. -/
def idsFirst : Option Stmt → List ExprId
  | none => []
  | some s => s.ids

theorem draws_forFirst (bound : Nat) :
    Draws Drawn [] (forFirst bound) idsFirst fun first => ∀ s, first = some s → s.Ranked := by
  apply (still_accept _).draws.bind
  intro empty _
  cases empty with
  | true => exact draws_pure rfl nofun
  | false =>
    apply (still_accept _).draws.bind
    intro declared _
    cases declared with
    | true =>
      refine (draws_varDeclaration bound).bind fun s good => draws_pure rfl ?_
      rintro _ ⟨⟩
      exact good
    | false =>
      refine (draws_expressionStatement bound).bind fun s good => draws_pure rfl ?_
      rintro _ ⟨⟩
      exact good.2

/-- The parts of a `for` are written in one order and run in another. -/
theorem forLoop_ids_perm (first : Option Stmt) (condition : Expr) (step : Option Expr)
    (body : Stmt) :
    (idsFirst first ++ condition.ids ++ idsOptional step ++ body.ids).Perm
      (Stmt.forLoop first condition step body).ids := by
  have round : (idsOptional step ++ body.ids).Perm (body.forRound step).ids := by
    cases step with
    | none => exact .refl _
    | some e =>
      simpa [Stmt.forRound, Stmt.ids, Stmt.idsEach, idsOptional] using List.perm_append_comm
  cases first with
  | none =>
    rw [idsFirst, List.nil_append, List.append_assoc]
    exact round.append_left _
  | some s =>
    rw [idsFirst, List.append_assoc, List.append_assoc]
    simp only [Stmt.forLoop, Stmt.ids, Stmt.idsEach, List.append_nil]
    exact (round.append_left _).append_left _

theorem forLoop_branch {first : Option Stmt} {condition : Expr} {step : Option Expr} {body : Stmt}
    (ranked : ∀ s, first = some s → s.Ranked) (branch : Branch body) :
    Branch (Stmt.forLoop first condition step body) := by
  have round : Branch (body.forRound step) := by
    cases step with
    | none => exact branch
    | some e => exact ⟨rfl, branch.2, trivial, trivial⟩
  cases first with
  | none => exact ⟨rfl, round⟩
  | some s => exact ⟨rfl, ranked s rfl, round, trivial⟩

theorem draws_forLoop {first : Option Stmt} {condition : Expr} {step : Option Expr} {body : Stmt}
    {before : List ExprId}
    (parts : before.Perm (idsFirst first ++ condition.ids ++ idsOptional step ++ body.ids))
    (ranked : ∀ s, first = some s → s.Ranked) (branch : Branch body) :
    Draws Drawn before (pure (.forLoop first condition step body)) Stmt.ids Branch := by
  have built : Draws Drawn (Stmt.forLoop first condition step body).ids
      (pure (.forLoop first condition step body)) Stmt.ids Branch :=
    draws_pure rfl (forLoop_branch ranked branch)
  exact ⟨built.counts, built.shaped, fun low c s c' ok drawn => built.drawn low c s c' ok
    (drawn.perm (parts.trans (forLoop_ids_perm first condition step body)))⟩

theorem draws_forStatement (inner : Draws Drawn [] statement Stmt.ids Branch) (bound : Nat) :
    Draws Drawn [] (forStatement bound statement) Stmt.ids Branch := by
  apply (still_expect _ _).draws.bind
  intro _ _
  apply (draws_forFirst bound).bind
  intro first ranked
  apply ((draws_optionalBefore _ bound).behind _).bind
  intro condition _
  apply (still_expect _ _).draws.bind
  intro _ _
  apply ((draws_optionalBefore _ bound).behind _).bind
  intro step _
  apply (still_expect _ _).draws.bind
  intro _ _
  apply (inner.behind _).bind
  intro body good
  cases condition with
  | some e =>
    exact draws_forLoop (.refl _) ranked good
  | none =>
    apply draws_freshId.bind
    intro id _
    refine draws_forLoop ?_ ranked good
    simp only [Expr.ids, List.append_assoc]
    refine List.Perm.append_left _ ?_
    show (idsOptional step ++ (body.ids ++ [id])).Perm _
    rw [← List.append_assoc]
    exact List.perm_append_comm

theorem draws_untilBrace {item : Parse α} (items : Draws Drawn [] item ids shape) (bound : Nat) :
    Draws Drawn [] (untilBrace item bound) (fun as => as.flatMap ids)
      fun as => ∀ a ∈ as, shape a := by
  induction bound with
  | zero => exact draws_pure rfl nofun
  | succ bound ih =>
    apply still_peek.draws.bind
    intro next _
    split
    · exact draws_pure rfl nofun
    · exact draws_pure rfl nofun
    · apply items.bind
      intro first good
      apply (ih.behind _).bind
      intro rest others
      exact draws_pure (by simp) (by simpa using ⟨good, others⟩)

theorem draws_block (inner : Draws Drawn [] declaration Stmt.ids Stmt.Ranked) (bound : Nat) :
    Draws Drawn [] (block bound declaration) Stmt.idsEach Stmt.RankedEach := by
  apply (draws_untilBrace inner bound).bind
  intro body good
  apply (still_expect _ _).draws.bind
  intro _ _
  exact draws_pure (Stmt.idsEach_eq_flatMap body) ((Stmt.rankedEach_iff body).mpr good)

theorem draws_function (inner : Draws Drawn [] declaration Stmt.ids Stmt.Ranked) (bound : Nat)
    (role : FunctionRole) :
    Draws Drawn [] (function bound declaration role) FunctionDecl.ids FunctionDecl.Ranked := by
  apply (still_expect _ _).draws.bind
  intro name _
  apply (still_expect _ _).draws.bind
  intro _ _
  have names := draws_parenthesized (R := Drawn)
    (still_expect .identifier .parameterName).draws .tooManyParameters .parametersClose
  apply (names.drop (List.nil_sublist _)).bind
  intro params _
  apply (still_expect _ _).draws.bind
  intro _ _
  have none : params.1.flatMap (fun _ => ([] : List ExprId)) = [] := by simp
  rw [none]
  exact (draws_block inner bound).bind fun body good => draws_pure rfl good

theorem draws_superclass :
    Draws Drawn [] superclass (fun parent => (parent.map (·.id)).toList) fun _ => True := by
  apply (still_accept _).draws.bind
  intro given _
  cases given with
  | true =>
    apply (still_expect _ _).draws.bind
    intro name _
    exact draws_node (fun _ => rfl) fun _ => trivial
  | false => exact draws_pure rfl trivial

theorem draws_classDeclaration (inner : Draws Drawn [] declaration Stmt.ids Stmt.Ranked)
    (bound : Nat) :
    Draws Drawn [] (classDeclaration bound declaration) Stmt.ids Stmt.Ranked := by
  apply (still_expect _ _).draws.bind
  intro name _
  apply draws_superclass.bind
  intro parent _
  apply (still_expect _ _).draws.bind
  intro _ _
  have methods := draws_untilBrace (draws_function inner bound .method) bound
  apply (methods.behind _).bind
  intro methods good
  apply (still_expect _ _).draws.bind
  intro _ _
  refine draws_pure ?_ ((FunctionDecl.rankedEach_iff methods).mpr good)
  rw [Stmt.ids, FunctionDecl.idsEach_eq_flatMap]

theorem draws_statementWith (statements : Draws Drawn [] statement Stmt.ids Branch)
    (declarations : Draws Drawn [] declaration Stmt.ids Stmt.Ranked) (bound : Nat) :
    Draws Drawn [] (statementWith bound statement declaration) Stmt.ids Branch := by
  apply (still_takeIf _).draws.bind
  intro start _
  match start with
  | some (.forLoop, _) => exact draws_forStatement statements bound
  | some (.ifElse, _) => exact draws_ifStatement statements bound
  | some (.whileLoop, _) => exact draws_whileStatement statements bound
  | some (.returns, keyword) => exact draws_returnStatement bound keyword
  | some (.block, _) =>
    exact (draws_block declarations bound).bind fun body good => draws_pure rfl ⟨rfl, good⟩
  | some (.print, _) => exact draws_printStatement bound
  | none => exact draws_expressionStatement (bound + 1)

theorem draws_declarationWith (statements : Draws Drawn [] statement Stmt.ids Branch)
    (declarations : Draws Drawn [] declaration Stmt.ids Stmt.Ranked) (bound : Nat) :
    Draws Drawn [] (declarationWith bound statement declaration) Stmt.ids Stmt.Ranked := by
  apply (still_takeIf _).draws.bind
  intro start _
  match start with
  | some (.classDecl, _) => exact draws_classDeclaration declarations bound
  | some (.function, _) =>
    exact (draws_function declarations bound .function).bind fun f good => draws_pure rfl good
  | some (.var, _) => exact draws_varDeclaration bound
  | none => exact (draws_statementWith statements declarations bound).imp fun _ good => good.2

theorem draws_statement_declaration (bound : Nat) :
    Draws Drawn [] (Parse.statement bound) Stmt.ids Branch ∧
      Draws Drawn [] (Parse.declaration bound) Stmt.ids Stmt.Ranked := by
  induction bound with
  | zero => exact ⟨draws_fail _, draws_fail _⟩
  | succ bound ih =>
    exact ⟨draws_statementWith ih.1 ih.2 bound, draws_declarationWith ih.1 ih.2 bound⟩

end Parse

theorem parseFrom_nextId (bound : Nat) (c : Cursor) : c.nextId ≤ (parseFrom bound c).nextId := by
  induction bound generalizing c with
  | zero => exact Nat.le_refl _
  | succ bound ih =>
    have counts := (Parse.draws_statement_declaration (bound + 1)).2.counts c
    unfold parseFrom
    unfold Parse.behind at counts
    cases c.rest with
    | nil => exact Nat.le_refl _
    | cons t rest =>
      cases found : Parse.declaration (bound + 1) c with
      | ok s c' =>
        simp only [found] at counts
        exact Nat.le_trans counts (ih c')
      | error e c' =>
        simp only [found] at counts
        exact Nat.le_trans counts (ih { c' with rest := Recovery.resume c'.rest })

/-- A program that is parsed without errors has new numbers, and all its declarations stand
where they may. -/
theorem parseFrom_drawn (bound : Nat) (c : Cursor) (clean : (parseFrom bound c).errors = []) :
    Drawn c.nextId (parseFrom bound c).nextId (Stmt.idsEach (parseFrom bound c).statements) ∧
      Stmt.RankedEach (parseFrom bound c).statements := by
  induction bound generalizing c with
  | zero => exact ⟨.nil _, trivial⟩
  | succ bound ih =>
    have draws := (Parse.draws_statement_declaration (bound + 1)).2
    unfold parseFrom at clean ⊢
    cases left : c.rest with
    | nil => exact ⟨.nil _, trivial⟩
    | cons t rest =>
      cases found : Parse.declaration (bound + 1) c with
      | error e c' => simp [left, found] at clean
      | ok s c' =>
        simp only [left, found] at clean ⊢
        obtain ⟨drawn, good⟩ := ih c' clean
        have first := draws.drawn c.nextId c s c' found (.nil _)
        exact ⟨first.append drawn, draws.shaped c s c' found, good⟩

end ScopeScript
