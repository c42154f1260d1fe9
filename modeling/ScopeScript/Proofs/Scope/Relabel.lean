import ScopeScript.Proofs.Tree.Relabel
import ScopeScript.Scope.Resolve

/-! Static checks on a tree with other numbers and lines. What is found is the same up to these
labels, and of the global names only matters which there are. -/
namespace ScopeScript

def Place.relabel (r : Relabel) (p : Place) : Place := { p with line := r.line p.line }

def Finding.relabel (r : Relabel) : Finding → Finding
  | found id distance => found (r.id id) distance
  | breach error => breach { error with place := error.place.relabel r }

/-! What is declared is told by texts. -/

theorem Scopes.after_relabel (r : Relabel) (s : Scopes) (statement : Stmt) :
    s.after (statement.relabel r) = s.after statement := by
  cases statement with
  | function declaration =>
    simp only [Stmt.relabel, Scopes.after, FunctionDecl.relabel_name, Lexeme.relabel_text]
  | _ => rfl

theorem Scopes.declareParams_relabel (r : Relabel) (s : Scopes) (params : List Lexeme) :
    s.declareParams (params.map (Lexeme.relabel r)) = s.declareParams params := by
  induction params generalizing s with
  | nil => rfl
  | cons p rest ih => exact ih (s.declare p.text)

/-- Scopes that differ in the order of the global names at most. -/
structure Scopes.Alike (s t : Scopes) : Prop where
  locals : t.locals = s.locals
  globals : ∀ x, x ∈ t.globals ↔ x ∈ s.globals

namespace Scopes.Alike
variable {s t : Scopes} (alike : s.Alike t) (r : Relabel)
include alike

theorem duplicate (name : Lexeme) :
    t.duplicate (name.relabel r) = (s.duplicate name).map (Finding.relabel r) := by
  simp only [Scopes.duplicate, alike.locals]
  cases s.locals with
  | nil => rfl
  | cons scope outer =>
    by_cases known : scope.contains name.text = true
    · simp only [Lexeme.relabel_text, known, if_true]
      rfl
    · simp only [Lexeme.relabel_text, known]
      rfl

theorem enter (names : List String) : (s.enter names).Alike (t.enter names) :=
  ⟨congrArg (names :: ·) alike.locals, alike.globals⟩

theorem declare (name : String) : (s.declare name).Alike (t.declare name) := by
  obtain ⟨locals, globals⟩ := alike
  unfold Scopes.declare
  rw [locals]
  cases here : s.locals with
  | cons scope outer => exact ⟨rfl, globals⟩
  | nil =>
    refine ⟨rfl, fun x => ?_⟩
    by_cases known : name ∈ s.globals
    · simp [known, (globals name).mpr known, globals x]
    · simp [known, mt (globals name).mp known, globals x]

theorem declareParams (params : List Lexeme) :
    (s.declareParams params).Alike (t.declareParams (params.map (Lexeme.relabel r))) := by
  rw [Scopes.declareParams_relabel]
  induction params generalizing s t with
  | nil => exact alike
  | cons p rest ih => exact ih (alike.declare p.text)

theorem duplicateParams (params : List Lexeme) :
    t.duplicateParams (params.map (Lexeme.relabel r)) =
      (s.duplicateParams params).map (Finding.relabel r) := by
  induction params generalizing s t with
  | nil => rfl
  | cons p rest ih =>
    simp only [List.map_cons, Scopes.duplicateParams, Lexeme.relabel_text, List.map_append]
    rw [alike.duplicate r p, ih (alike.declare p.text)]

theorem after (statement : Stmt) : (s.after statement).Alike (t.after (statement.relabel r)) := by
  rw [Scopes.after_relabel]
  cases statement with
  | var name _ | classDecl name _ _ => exact alike.declare name.text
  | function declaration => exact alike.declare declaration.name.text
  | expression _ | print _ | block _ | ifThen _ _ | ifElse _ _ _ | whileLoop _ _
  | returns _ _ => exact alike

end Scopes.Alike

/-- Contexts that differ in the order of the global names at most. -/
structure Context.Alike (c d : Context) : Prop where
  scopes : c.scopes.Alike d.scopes
  inFunction : d.inFunction = c.inFunction
  inClass : d.inClass = c.inClass
  pending : d.pending = c.pending

namespace Context.Alike
variable {c d : Context} (alike : c.Alike d) (r : Relabel)
include alike

theorem reference (id : ExprId) (name : Lexeme) :
    d.reference (r.id id) (name.relabel r) = (c.reference id name).map (Finding.relabel r) := by
  have distance : d.scopes.distance? name.text = c.scopes.distance? name.text := by
    rw [Scopes.distance?, Scopes.distance?, alike.scopes.locals]
  simp only [Context.reference, Lexeme.relabel_text, distance]
  cases c.scopes.distance? name.text with
  | some n => rfl
  | none =>
    simp only [alike.pending, alike.scopes.globals]
    split <;> rfl

theorem enter (names : List String) : (c.enter names).Alike (d.enter names) :=
  { alike with scopes := alike.scopes.enter names }

theorem declare (name : String) : (c.declare name).Alike (d.declare name) :=
  { alike with scopes := alike.scopes.declare name }

theorem after (s : Stmt) : (c.after s).Alike (d.after (s.relabel r)) :=
  { alike with scopes := alike.scopes.after r s }

theorem initialValueOf (name : String) : (c.initialValueOf name).Alike (d.initialValueOf name) :=
  { alike with pending := rfl }

theorem classBody : c.classBody.Alike d.classBody :=
  { alike.enter [thisName] with inClass := rfl }

theorem functionBody (params : List Lexeme) :
    (c.functionBody params).Alike (d.functionBody (params.map (Lexeme.relabel r))) :=
  { alike with scopes := (alike.scopes.enter []).declareParams r params, inFunction := rfl }

end Context.Alike

variable {c d : Context} (r : Relabel)

mutual

theorem Expr.findings_relabel (alike : c.Alike d) :
    ∀ e : Expr, (e.relabel r).findings d = (e.findings c).map (Finding.relabel r)
  | .literal _ _ => rfl
  | .group _ inner => inner.findings_relabel alike
  | .var id name => alike.reference r id name
  | .this id keyword => by
    simp only [Expr.relabel, Expr.findings, alike.inClass, alike.reference r]
    split <;> rfl
  | .assign id name value => by
    simp only [Expr.relabel, Expr.findings, List.map_append, value.findings_relabel alike,
      alike.reference r]
  | .unary _ _ _ operand => operand.findings_relabel alike
  | .binary _ _ _ left right | .logical _ _ _ left right | .set _ left _ right => by
    simp only [Expr.relabel, Expr.findings, List.map_append, left.findings_relabel alike,
      right.findings_relabel alike]
  | .call _ callee arguments _ => by
    simp only [Expr.relabel, Expr.findings, List.map_append, callee.findings_relabel alike,
      Expr.findingsEach_relabel alike arguments]
  | .get _ object _ => object.findings_relabel alike

theorem Expr.findingsEach_relabel (alike : c.Alike d) :
    ∀ es : List Expr, Expr.findingsEach d (Expr.relabelEach r es) =
      (Expr.findingsEach c es).map (Finding.relabel r)
  | [] => rfl
  | e :: rest => by
    simp only [Expr.relabelEach, Expr.findingsEach, List.map_append, e.findings_relabel alike,
      Expr.findingsEach_relabel alike rest]

end

mutual

theorem Stmt.findings_relabel {c d : Context} (alike : c.Alike d) :
    ∀ s : Stmt, (s.relabel r).findings d = (s.findings c).map (Finding.relabel r)
  | .expression value | .print value => value.findings_relabel r alike
  | .var name none => by
    simp only [Stmt.relabel, Stmt.findings, Option.map_none, List.append_nil,
      alike.scopes.duplicate r]
  | .var name (some e) => by
    simp only [Stmt.relabel, Stmt.findings, Option.map_some, List.map_append,
      alike.scopes.duplicate r, Lexeme.relabel_text,
      e.findings_relabel r (alike.initialValueOf name.text)]
  | .block body => Stmt.findingsEach_relabel (alike.enter []) body
  | .ifThen condition body | .whileLoop condition body => by
    simp only [Stmt.relabel, Stmt.findings, List.map_append, condition.findings_relabel r alike,
      body.findings_relabel alike]
  | .ifElse condition yes no => by
    simp only [Stmt.relabel, Stmt.findings, List.map_append, condition.findings_relabel r alike,
      yes.findings_relabel alike, no.findings_relabel alike]
  | .function declaration => by
    simp only [Stmt.relabel, Stmt.findings, List.map_append, FunctionDecl.relabel_name,
      Lexeme.relabel_text, alike.scopes.duplicate r,
      declaration.findings_relabel (alike.declare declaration.name.text)]
  | .returns keyword none => by
    simp only [Stmt.relabel, Stmt.findings, Option.map_none, List.append_nil, alike.inFunction]
    split <;> rfl
  | .returns keyword (some e) => by
    simp only [Stmt.relabel, Stmt.findings, Option.map_some, List.map_append, alike.inFunction,
      e.findings_relabel r alike]
    split <;> rfl
  | .classDecl name none methods => by
    have body := (alike.declare name.text).classBody
    simp only [Stmt.relabel, Stmt.findings, Option.map_none, List.append_nil, List.map_append,
      Lexeme.relabel_text, alike.scopes.duplicate r, FunctionDecl.findingsEach_relabel body methods]
  | .classDecl name (some s) methods => by
    have inside := alike.declare name.text
    have parent := inside.reference r s.id s.name
    simp only [Stmt.relabel, Stmt.findings, Option.map_some, List.map_append, Lexeme.relabel_text,
      alike.scopes.duplicate r, FunctionDecl.findingsEach_relabel inside.classBody methods]
    congr 2
    by_cases own : s.name.text = name.text
    · simp only [Superclass.relabel, Lexeme.relabel_text, own, if_true, parent]
      rfl
    · simp only [Superclass.relabel, Lexeme.relabel_text, own, if_false, parent]
      rfl

theorem Stmt.findingsEach_relabel {c d : Context} (alike : c.Alike d) :
    ∀ body : List Stmt, Stmt.findingsEach d (Stmt.relabelEach r body) =
      (Stmt.findingsEach c body).map (Finding.relabel r)
  | [] => rfl
  | s :: rest => by
    simp only [Stmt.relabelEach, Stmt.findingsEach, List.map_append, s.findings_relabel alike,
      Stmt.findingsEach_relabel (alike.after r s) rest]

theorem FunctionDecl.findings_relabel {c d : Context} (alike : c.Alike d) :
    ∀ f : FunctionDecl, (f.relabel r).findings d = (f.findings c).map (Finding.relabel r)
  | .mk _ params body => by
    simp only [FunctionDecl.relabel, FunctionDecl.findings, List.map_append,
      (alike.scopes.enter []).duplicateParams r,
      Stmt.findingsEach_relabel (alike.functionBody r params) body]

theorem FunctionDecl.findingsEach_relabel {c d : Context} (alike : c.Alike d) :
    ∀ fs : List FunctionDecl, FunctionDecl.findingsEach d (FunctionDecl.relabelEach r fs) =
      (FunctionDecl.findingsEach c fs).map (Finding.relabel r)
  | [] => rfl
  | f :: rest => by
    simp only [FunctionDecl.relabelEach, FunctionDecl.findingsEach, List.map_append,
      f.findings_relabel alike, FunctionDecl.findingsEach_relabel alike rest]

end

theorem Finding.error?_relabel (f : Finding) :
    (f.relabel r).error? = f.error?.map fun e => { e with place := e.place.relabel r } := by
  cases f <;> rfl

theorem Context.foldl_after (c : Context) (program : List Stmt) :
    program.foldl Context.after c = { c with scopes := program.foldl Scopes.after c.scopes } := by
  induction program generalizing c with
  | nil => rfl
  | cons s rest ih => rw [List.foldl_cons, ih, List.foldl_cons]; rfl

/-- Findings of a program that stands behind another one. -/
theorem Stmt.findingsEach_append (c : Context) (first second : List Stmt) :
    Stmt.findingsEach c (first ++ second) =
      Stmt.findingsEach c first ++ Stmt.findingsEach (first.foldl Context.after c) second := by
  induction first generalizing c with
  | nil => rfl
  | cons s rest ih =>
    rw [List.cons_append, Stmt.findingsEach, ih, Stmt.findingsEach, List.append_assoc]
    rfl

/-- Whether a program passes the checks. -/
theorem resolve_ok_iff {globals : List String} {program : List Stmt} :
    (∃ entries, resolve globals program = .ok entries) ↔
      (programFindings globals program).filterMap Finding.error? = [] := by
  simp only [resolve]
  split
  · next clean => exact ⟨fun _ => clean, fun _ => ⟨_, rfl⟩⟩
  · next breaches =>
    constructor
    · rintro ⟨_, ⟨⟩⟩
    · exact fun clean => absurd clean breaches

/-- Checks do not depend on numbers, on lines and on the order of the global names. -/
theorem clean_relabel {c d : Context} (alike : c.Alike d) {program : List Stmt}
    (clean : (Stmt.findingsEach c program).filterMap Finding.error? = []) :
    (Stmt.findingsEach d (Stmt.relabelEach r program)).filterMap Finding.error? = [] := by
  rw [Stmt.findingsEach_relabel r alike, List.filterMap_map]
  rw [List.filterMap_eq_nil_iff] at clean ⊢
  intro f member
  rw [Function.comp_apply, Finding.error?_relabel, clean f member]
  rfl

/-- A program that passes the checks also does with other labels. -/
theorem resolve_relabel {globals : List String} {program : List Stmt}
    {entries : List (ExprId × Nat)} (resolved : resolve globals program = .ok entries) :
    ∃ entries', resolve globals (Stmt.relabelEach r program) = .ok entries' := by
  have clean := resolve_ok_iff.mp ⟨entries, resolved⟩
  have alike : Context.Alike { scopes := ⟨[], globals⟩ } { scopes := ⟨[], globals⟩ } :=
    ⟨⟨rfl, fun _ => .rfl⟩, rfl, rfl, rfl⟩
  exact resolve_ok_iff.mpr (clean_relabel r alike clean)

end ScopeScript
