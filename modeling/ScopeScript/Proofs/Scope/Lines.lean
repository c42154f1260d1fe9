import ScopeScript.Proofs.Scope.Relabel
import ScopeScript.Proofs.Scope.Scoped

/-! Code on other lines. Distances are noted for the numbers of uses, and what a name means is told
by its text: code that agrees with its notes still does when it is moved to other lines. -/
namespace ScopeScript

section
variable (r : Relabel)

theorem Stmt.isDeclaration_relabel (s : Stmt) :
    (s.relabel r).isDeclaration = s.isDeclaration := by
  cases s <;> rfl

theorem Context.after_relabel (c : Context) (s : Stmt) : c.after (s.relabel r) = c.after s := by
  simp only [Context.after, Scopes.after_relabel]

theorem Context.functionBody_relabel (c : Context) (params : List Lexeme) :
    c.functionBody (params.map (Lexeme.relabel r)) = c.functionBody params := by
  simp only [Context.functionBody, Scopes.declareParams_relabel]

theorem Scopes.FreshParams.relabel {s : Scopes} {params : List Lexeme}
    (fresh : s.FreshParams params) : s.FreshParams (params.map (Lexeme.relabel r)) := by
  induction params generalizing s with
  | nil => exact fresh
  | cons p rest ih => exact ⟨fresh.1, ih fresh.2⟩

end

section
variable {n : Notes} (line : Nat → Nat)

mutual

theorem Expr.scoped_lines {s : Scopes} :
    ∀ e : Expr, e.Scoped n s → (e.relabel (.lines line)).Scoped n s
  | .literal _ _, _ => trivial
  | .group _ inner, agrees => inner.scoped_lines agrees
  | .var _ _, agrees | .this _ _, agrees => agrees
  | .assign _ _ value, agrees => ⟨value.scoped_lines agrees.1, agrees.2⟩
  | .unary _ _ _ operand, agrees => operand.scoped_lines agrees
  | .binary _ _ _ left right, agrees | .logical _ _ _ left right, agrees
  | .set _ left _ right, agrees =>
    ⟨left.scoped_lines agrees.1, right.scoped_lines agrees.2⟩
  | .call _ callee arguments _, agrees =>
    ⟨callee.scoped_lines agrees.1, Expr.scopedEach_lines arguments agrees.2⟩
  | .get _ object _, agrees => object.scoped_lines agrees

theorem Expr.scopedEach_lines {s : Scopes} :
    ∀ es : List Expr, Expr.ScopedEach n s es →
      Expr.ScopedEach n s (Expr.relabelEach (.lines line) es)
  | [], _ => trivial
  | e :: rest, agrees => ⟨e.scoped_lines agrees.1, Expr.scopedEach_lines rest agrees.2⟩

end

/-- The branch of a condition or the body of a loop. -/
theorem Stmt.branch_lines {c : Context} {s : Stmt}
    (inside : s.Scoped n c → (s.relabel (.lines line)).Scoped n c)
    (agrees : s.isDeclaration = false ∧ s.Scoped n c) :
    (s.relabel (.lines line)).isDeclaration = false ∧ (s.relabel (.lines line)).Scoped n c :=
  ⟨(s.isDeclaration_relabel _).trans agrees.1, inside agrees.2⟩

mutual

theorem Stmt.scoped_lines {c : Context} :
    ∀ s : Stmt, s.Scoped n c → (s.relabel (.lines line)).Scoped n c
  | .expression value, agrees | .print value, agrees => value.scoped_lines line agrees
  | .var _ none, agrees | .returns _ none, agrees => agrees
  | .var _ (some e), agrees | .returns _ (some e), agrees =>
    ⟨agrees.1, e.scoped_lines line agrees.2⟩
  | .block body, agrees => Stmt.scopedEach_lines body agrees
  | .ifThen condition body, agrees | .whileLoop condition body, agrees =>
    ⟨condition.scoped_lines line agrees.1, Stmt.branch_lines line body.scoped_lines agrees.2⟩
  | .ifElse condition yes no, agrees =>
    ⟨condition.scoped_lines line agrees.1, Stmt.branch_lines line yes.scoped_lines agrees.2.1,
      Stmt.branch_lines line no.scoped_lines agrees.2.2⟩
  | .function declaration, agrees => by
    simp only [Stmt.relabel, Stmt.Scoped, FunctionDecl.relabel_name, Lexeme.relabel_text]
    exact ⟨agrees.1, declaration.scoped_lines agrees.2⟩
  | .classDecl _ none methods, agrees =>
    ⟨agrees.1, trivial, FunctionDecl.scopedEach_lines methods agrees.2.2⟩
  | .classDecl _ (some _) methods, agrees =>
    ⟨agrees.1, agrees.2.1, FunctionDecl.scopedEach_lines methods agrees.2.2⟩

theorem Stmt.scopedEach_lines {c : Context} :
    ∀ body : List Stmt, Stmt.ScopedEach n c body →
      Stmt.ScopedEach n c (Stmt.relabelEach (.lines line) body)
  | [], _ => trivial
  | s :: rest, agrees => by
    rw [Stmt.relabelEach, Stmt.ScopedEach, Context.after_relabel]
    exact ⟨s.scoped_lines agrees.1, Stmt.scopedEach_lines rest agrees.2⟩

theorem FunctionDecl.scoped_lines {c : Context} :
    ∀ f : FunctionDecl, f.Scoped n c → (f.relabel (.lines line)).Scoped n c
  | .mk _ _ body, agrees => by
    rw [FunctionDecl.relabel, FunctionDecl.Scoped, Context.functionBody_relabel]
    exact ⟨agrees.1.relabel _, Stmt.scopedEach_lines body agrees.2⟩

theorem FunctionDecl.scopedEach_lines {c : Context} :
    ∀ fs : List FunctionDecl, FunctionDecl.ScopedEach n c fs →
      FunctionDecl.ScopedEach n c (FunctionDecl.relabelEach (.lines line) fs)
  | [], _ => trivial
  | f :: rest, agrees =>
    ⟨f.scoped_lines agrees.1, FunctionDecl.scopedEach_lines rest agrees.2⟩

end
end

end ScopeScript
