import ScopeScript.Proofs.Scope.Marks

/-! Code closes the scopes that it opens. What is declared in one of these scopes is left behind
when the scope is closed. -/
namespace ScopeScript

/-! Pieces of text one behind the other. -/

theorem Mark.depth_add {mark : Mark} {n m : Nat} (k : Nat) (step : mark.depth n = some m) :
    mark.depth (n + k) = some (m + k) := by
  cases mark with
  | closes =>
    cases n with
    | zero => contradiction
    | succ n =>
      cases step
      rw [Nat.add_right_comm]
      rfl
  | opens kind =>
    cases step
    rw [Nat.add_right_comm]
    rfl
  | declares _ _ | completes _ | uses _ _ | this _ _ | returns _ | inherits _ _ =>
    cases step
    rfl

/-- A text does the same further inside. -/
theorem foldlM_depth_add {text : List Mark} {n m : Nat} (k : Nat)
    (steps : text.foldlM (fun n mark => mark.depth n) n = some m) :
    text.foldlM (fun n mark => mark.depth n) (n + k) = some (m + k) := by
  induction text generalizing n with
  | nil =>
    cases steps
    rfl
  | cons mark rest ih =>
    rw [List.foldlM_cons, Option.bind_eq_bind, Option.bind_eq_some_iff] at steps
    obtain ⟨next, step, steps⟩ := steps
    rw [List.foldlM_cons, Mark.depth_add k step]
    exact ih steps

section Append
variable {text rest : List Mark} {n m : Nat}

theorem leftOpen_append_of_some (opened : leftOpen rest = some m) :
    leftOpen (text ++ rest) = (leftOpen text).map (· + m) := by
  unfold leftOpen at opened ⊢
  rw [List.foldlM_append]
  cases text.foldlM (fun n mark => mark.depth n) 0 with
  | none => rfl
  | some n =>
    have further := foldlM_depth_add n opened
    rw [Nat.zero_add, Nat.add_comm m n] at further
    exact further

theorem leftOpen_append_eq_none (closed : leftOpen text = none) :
    leftOpen (text ++ rest) = none := by
  unfold leftOpen at closed ⊢
  rw [List.foldlM_append, closed]
  rfl

end Append

namespace Mark

/-- A mark that neither opens nor closes a scope. -/
def Level (mark : Mark) : Prop := ∀ n, mark.depth n = some n

theorem level_of_use {mark : Mark} (use : mark.use?.isSome = true) : mark.Level := by
  intro n
  cases mark with
  | uses _ _ | this _ _ => rfl
  | opens _ | closes | declares _ _ | completes _ | returns _ | inherits _ _ => contradiction

end Mark

theorem leftOpen_of_level {text : List Mark} (level : ∀ mark ∈ text, mark.Level) :
    leftOpen text = some 0 := by
  unfold leftOpen
  induction text with
  | nil => rfl
  | cons mark rest ih =>
    obtain ⟨first, others⟩ := List.forall_mem_cons.mp level
    rw [List.foldlM_cons, first]
    exact ih others

/-- The end of a scope closes what stands in the scope itself. -/
theorem leftOpen_closes_eq_none {front back : List Mark} {mark : Mark}
    (inside : leftOpen (front ++ mark :: back) = some 0) (level : mark.Level) :
    leftOpen (back ++ [.closes]) = none := by
  rw [leftOpen_concat]
  cases opened : leftOpen back with
  | none => rfl
  | some d =>
    cases d with
    | zero => rfl
    | succ d =>
      -- a scope that is opened behind the mark would be open at the end
      have behind : leftOpen (mark :: back) = some (d + 1) := by
        rw [← opened]
        unfold leftOpen
        rw [List.foldlM_cons, level]
        rfl
      rw [leftOpen_append_of_some behind] at inside
      cases begun : leftOpen front with
      | none =>
        rw [begun] at inside
        cases inside
      | some n =>
        rw [begun] at inside
        cases inside

/-! Texts that are closed. -/

/-- A text that closes the scopes it opens and declares names in these only. -/
structure Closed (text : List Mark) : Prop where
  leftOpen : leftOpen text = some 0
  declares : ∀ front kind name back, text = front ++ .declares kind name :: back →
    ScopeScript.leftOpen back = none

namespace Closed

/-- A text without scopes and declarations. -/
theorem of_level {text : List Mark} (level : ∀ mark ∈ text, mark.Level)
    (quiet : ∀ kind name, .declares kind name ∉ text) : Closed text := by
  refine ⟨leftOpen_of_level level, ?_⟩
  rintro front kind name back rfl
  exact absurd (by simp) (quiet kind name)

theorem of_uses {text : List Mark} (uses : ∀ mark ∈ text, mark.use?.isSome = true) :
    Closed text := by
  refine .of_level (fun mark member => Mark.level_of_use (uses mark member)) ?_
  exact fun _ _ member => absurd (uses _ member) (by simp [Mark.use?])

theorem append {text rest : List Mark} (first : Closed text) (second : Closed rest) :
    Closed (text ++ rest) := by
  refine ⟨?_, fun front kind name back split => ?_⟩
  · rw [leftOpen_append_of_some second.leftOpen, first.leftOpen]
    rfl
  · rcases List.append_eq_append_iff.mp split with ⟨more, _, later⟩ | ⟨more, earlier, later⟩
    · exact second.declares more kind name back later
    · cases more with
      | nil => exact second.declares [] kind name back later.symm
      | cons mark others =>
        obtain ⟨rfl, rfl⟩ := List.cons.inj later
        exact leftOpen_append_eq_none (first.declares front kind name others earlier)

/-- A scope with what is inside. -/
theorem scope {text : List Mark} (inside : ScopeScript.leftOpen text = some 0) (kind : ScopeKind) :
    Closed (.opens kind :: (text ++ [.closes])) := by
  refine ⟨?_, fun front declaration name back split => ?_⟩
  · have opened : ScopeScript.leftOpen (.opens kind :: text) = some 1 := by
      rw [← List.singleton_append, leftOpen_append_of_some inside]
      rfl
    rw [← List.cons_append, leftOpen_concat, opened]
    rfl
  · cases front with
    | nil => cases split
    | cons first front =>
      obtain ⟨_, within⟩ := List.cons.inj split
      rcases concat_eq_append_cons.mp within with ⟨_, other, _⟩ | ⟨rest, rfl, rfl⟩
      · cases other
      · exact leftOpen_closes_eq_none inside fun _ => rfl

end Closed

/-! Trees. -/

mutual

/-- Nothing is declared in an expression. -/
theorem Expr.marks_use : ∀ e : Expr, ∀ mark ∈ e.marks, mark.use?.isSome = true
  | .literal _ _ => nofun
  | .group _ inner => inner.marks_use
  | .var _ _ | .this _ _ => by simp [Expr.marks, Mark.use?]
  | .assign _ _ value =>
    List.forall_mem_append.mpr ⟨value.marks_use, by simp [Mark.use?]⟩
  | .unary _ _ _ operand => operand.marks_use
  | .binary _ _ _ left right | .logical _ _ _ left right | .set _ left _ right =>
    List.forall_mem_append.mpr ⟨left.marks_use, right.marks_use⟩
  | .call _ callee arguments _ =>
    List.forall_mem_append.mpr ⟨callee.marks_use, Expr.marksEach_use arguments⟩
  | .get _ object _ => object.marks_use

theorem Expr.marksEach_use : ∀ es : List Expr, ∀ mark ∈ Expr.marksEach es, mark.use?.isSome = true
  | [] => nofun
  | e :: rest => List.forall_mem_append.mpr ⟨e.marks_use, Expr.marksEach_use rest⟩

end

theorem marksOptional_use (value : Option Expr) :
    ∀ mark ∈ marksOptional value, mark.use?.isSome = true := by
  cases value with
  | none => nofun
  | some e => exact e.marks_use

/-- A piece that leaves nothing open in front of another one. -/
theorem leftOpen_append_zero {text rest : List Mark} (first : leftOpen text = some 0)
    (second : leftOpen rest = some 0) : leftOpen (text ++ rest) = some 0 := by
  rw [leftOpen_append_of_some second, first]
  rfl

theorem Superclass.closed (name : Lexeme) (superclass : Option Superclass) :
    Closed (Superclass.marks name superclass) := by
  cases superclass with
  | none => exact .of_level nofun nofun
  | some s =>
    refine .of_level ?_ (by simp [Superclass.marks])
    simp [Superclass.marks, Mark.Level, Mark.depth]

theorem leftOpen_params (params : List Lexeme) :
    leftOpen (params.flatMap (Mark.declared .ofParameter)) = some 0 := by
  induction params with
  | nil => rfl
  | cons p rest ih => exact leftOpen_append_zero rfl ih

mutual

theorem Stmt.leftOpen_marks : ∀ s : Stmt, leftOpen s.marks = some 0
  | .expression value | .print value => (Closed.of_uses value.marks_use).leftOpen
  | .var name initial => by
    have value := (Closed.of_uses (marksOptional_use initial)).leftOpen
    have ended : leftOpen (marksOptional initial ++ [.completes name.text]) = some 0 :=
      leftOpen_append_zero value rfl
    have begun : leftOpen [.declares .ofVariable name] = some 0 := rfl
    have whole := leftOpen_append_zero begun ended
    exact whole
  | .block body => (Closed.scope (Stmt.leftOpen_marksEach body) .block).leftOpen
  | .ifThen condition body | .whileLoop condition body =>
    leftOpen_append_zero (Closed.of_uses condition.marks_use).leftOpen body.leftOpen_marks
  | .ifElse condition yes no =>
    leftOpen_append_zero (Closed.of_uses condition.marks_use).leftOpen
      (leftOpen_append_zero yes.leftOpen_marks no.leftOpen_marks)
  | .function declaration => leftOpen_append_zero rfl declaration.closed.leftOpen
  | .returns keyword value => by
    have begun : leftOpen [.returns keyword] = some 0 := rfl
    exact leftOpen_append_zero begun (Closed.of_uses (marksOptional_use value)).leftOpen
  | .classDecl name superclass methods => by
    have begun : leftOpen [.completes thisName] = some 0 := rfl
    have inside := leftOpen_append_zero begun (FunctionDecl.closedEach methods).leftOpen
    have parts := leftOpen_append_zero (Superclass.closed name superclass).leftOpen
      (Closed.scope inside .methods).leftOpen
    exact leftOpen_append_zero rfl parts

theorem Stmt.leftOpen_marksEach : ∀ body : List Stmt, leftOpen (Stmt.marksEach body) = some 0
  | [] => rfl
  | s :: rest => leftOpen_append_zero s.leftOpen_marks (Stmt.leftOpen_marksEach rest)

/-- The parameters and the body of a function are a scope. -/
theorem FunctionDecl.closed : ∀ f : FunctionDecl, Closed f.marks
  | .mk _ params body => by
    have inside := leftOpen_append_zero (leftOpen_params params) (Stmt.leftOpen_marksEach body)
    have whole := Closed.scope inside .function
    rwa [List.append_assoc] at whole

theorem FunctionDecl.closedEach : ∀ fs : List FunctionDecl, Closed (FunctionDecl.marksEach fs)
  | [] => .of_uses nofun
  | f :: rest => f.closed.append (FunctionDecl.closedEach rest)

end

end ScopeScript
