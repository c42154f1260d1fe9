import ScopeScript.Proofs.Scope.Scoped
import ScopeScript.Proofs.Tree.Nodes

/-! Static scoping finds distances for the uses of names and for no other nodes. -/
namespace ScopeScript

/-- The nodes that stand for the use of a name. -/
def Expr.isUse : Expr → Bool
  | .var _ _ | .this _ _ | .assign _ _ _ => true
  | _ => false

/-- A use of a name has this number among these nodes. -/
def Expr.Uses (nodes : List Expr) (id : ExprId) : Prop :=
  ∃ node ∈ nodes, node.id = id ∧ node.isUse = true

theorem Expr.Uses.mono {few many : List Expr} {id : ExprId} (uses : Uses few id)
    (subset : few ⊆ many) : Uses many id := by
  obtain ⟨node, member, number, use⟩ := uses
  exact ⟨node, subset member, number, use⟩

/-- Findings on uses of names in these expressions only. -/
def Finding.About (es : List Expr) (findings : List Finding) : Prop :=
  ∀ use distance, .found use distance ∈ findings → Expr.Uses (es.flatMap Expr.nodes) use

namespace Finding

theorem Within.mem_of_found {ids : List ExprId} {findings : List Finding} {use : ExprId}
    {distance : Nat} (within : Within ids findings) (found : .found use distance ∈ findings) :
    use ∈ ids := by
  have entry : (use, distance) ∈ findings.filterMap Finding.entry? :=
    List.mem_filterMap.mpr ⟨_, found, rfl⟩
  exact within.subset (List.mem_map_of_mem entry)

/-- Where there are no numbers, nothing is found. -/
theorem Within.about {findings : List Finding} (within : Within [] findings) (es : List Expr) :
    About es findings :=
  fun _ _ found => nomatch within.mem_of_found found

theorem About.append {es others : List Expr} {findings more : List Finding}
    (first : About es findings) (second : About others more) :
    About (es ++ others) (findings ++ more) := by
  intro use distance found
  rw [List.flatMap_append]
  rcases List.mem_append.mp found with here | there
  · exact (first use distance here).mono (List.subset_append_left _ _)
  · exact (second use distance there).mono (List.subset_append_right _ _)

end Finding

open Finding (Within About)

/-- What is found in an expression is found in an operand or for the node itself. -/
theorem Expr.mem_findings {e : Expr} {c : Context} {use : ExprId} {distance : Nat}
    (found : .found use distance ∈ e.findings c) :
    (∃ part ∈ e.parts, .found use distance ∈ part.findings c) ∨ e.id = use ∧ e.isUse = true := by
  have here {id : ExprId} {name : Lexeme} (found : .found use distance ∈ c.reference id name) :
      id = use :=
    (List.mem_singleton.mp ((c.reference_within id name).mem_of_found found)).symm
  have each (es : List Expr) : findingsEach c es = es.flatMap (findings c) := by
    induction es with
    | nil => rfl
    | cons e rest ih => rw [findingsEach, ih, List.flatMap_cons]
  cases e with
  | literal _ _ => cases found
  | var id name => exact .inr ⟨here found, rfl⟩
  | this id keyword =>
    simp only [findings] at found
    split at found
    · exact .inr ⟨here found, rfl⟩
    · simp [Finding.breachAt] at found
  | assign id name value =>
    rcases List.mem_append.mp found with inside | found
    · exact .inl ⟨value, List.mem_cons_self, inside⟩
    · exact .inr ⟨here found, rfl⟩
  | group _ inner | unary _ _ _ inner | get _ inner _ =>
    exact .inl ⟨inner, List.mem_cons_self, found⟩
  | binary _ _ _ left right | logical _ _ _ left right | set _ left _ right =>
    rcases List.mem_append.mp found with inside | inside
    · exact .inl ⟨left, by simp [parts], inside⟩
    · exact .inl ⟨right, by simp [parts], inside⟩
  | call _ callee arguments _ =>
    rcases List.mem_append.mp found with inside | inside
    · exact .inl ⟨callee, List.mem_cons_self, inside⟩
    · rw [each, List.mem_flatMap] at inside
      obtain ⟨argument, member, inside⟩ := inside
      exact .inl ⟨argument, List.mem_cons_of_mem _ member, inside⟩

theorem Expr.uses_of_found {e : Expr} {c : Context} {use : ExprId} {distance : Nat}
    (found : .found use distance ∈ e.findings c) : Uses e.nodes use := by
  induction e using parts_induction with
  | node e ih =>
    rw [nodes_eq]
    rcases mem_findings found with ⟨part, isPart, inside⟩ | ⟨number, isUse⟩
    · refine (ih part isPart inside).mono fun node member => ?_
      exact List.mem_append_left _ (List.mem_flatMap.mpr ⟨part, isPart, member⟩)
    · exact ⟨e, List.mem_append_right _ List.mem_cons_self, number, isUse⟩

theorem Expr.findings_about (c : Context) (e : Expr) : About [e] (e.findings c) := by
  intro use distance found
  rw [List.flatMap_singleton]
  exact uses_of_found found

/-- A class uses the name of its superclass. -/
theorem Superclass.reference_about (c : Context) (s : Superclass) :
    About [s.expr] (c.reference s.id s.name) :=
  s.expr.findings_about c

mutual

theorem Stmt.findings_about (c : Context) : ∀ s : Stmt, About s.exprs (s.findings c)
  | .expression value | .print value => value.findings_about c
  | .var name none => ((c.scopes.duplicate_within name []).append (Finding.within_nil [])).about _
  | .var name (some e) =>
    ((c.scopes.duplicate_within name []).about []).append (e.findings_about (c.initialValueOf _))
  | .block body => Stmt.findingsEach_about (c.enter []) body
  | .ifThen condition yes => (condition.findings_about c).append (yes.findings_about c)
  | .ifElse condition yes no =>
    ((condition.findings_about c).append (yes.findings_about c)).append (no.findings_about c)
  | .whileLoop condition body => (condition.findings_about c).append (body.findings_about c)
  | .function declaration =>
    ((c.scopes.duplicate_within declaration.name []).about []).append
      (declaration.findings_about (c.declare declaration.name.text))
  | .returns keyword value => by
    have outside : Within []
        (if c.inFunction then [] else [.breachAt .topLevelReturn keyword]) :=
      (Finding.within_nil _).ite (Finding.within_breach _ _ _)
    cases value with
    | none => exact (outside.append (Finding.within_nil [])).about _
    | some e => exact (outside.about []).append (e.findings_about c)
  | .classDecl name none methods =>
    (((c.scopes.duplicate_within name []).append (Finding.within_nil [])).about []).append
      (FunctionDecl.findingsEach_about (c.declare name.text).classBody methods)
  | .classDecl name (some s) methods => by
    have own : Within []
        (if s.name.text = name.text then [.breachAt .ownSuperclass s.name] else []) :=
      (Finding.within_breach _ _ _).ite (Finding.within_nil _)
    have parent := (own.about []).append (s.reference_about (c.declare name.text))
    exact (((c.scopes.duplicate_within name []).about []).append parent).append
      (FunctionDecl.findingsEach_about (c.declare name.text).classBody methods)

theorem Stmt.findingsEach_about (c : Context) :
    ∀ body : List Stmt, About (Stmt.exprsEach body) (Stmt.findingsEach c body)
  | [] => nofun
  | s :: rest => (s.findings_about c).append (Stmt.findingsEach_about (c.after s) rest)

theorem FunctionDecl.findings_about (c : Context) :
    ∀ f : FunctionDecl, About f.exprs (f.findings c)
  | .mk _ params body =>
    (((c.scopes.enter []).duplicateParams_within params []).about []).append
      (Stmt.findingsEach_about (c.functionBody params) body)

theorem FunctionDecl.findingsEach_about (c : Context) :
    ∀ fs : List FunctionDecl, About (FunctionDecl.exprsEach fs) (FunctionDecl.findingsEach c fs)
  | [] => nofun
  | f :: rest => (f.findings_about c).append (FunctionDecl.findingsEach_about c rest)

end

/-- The distances of a program are those of the uses of names in it. -/
theorem resolve_uses {globals : List String} {program : List Stmt}
    {entries : List (ExprId × Nat)} (resolved : resolve globals program = .ok entries) :
    ∀ entry ∈ entries, Expr.Uses (programNodes program) entry.1 := by
  simp only [resolve] at resolved
  split at resolved
  · cases resolved
    rintro ⟨use, distance⟩ member
    obtain ⟨finding, found, entry⟩ := List.mem_filterMap.mp member
    cases finding with
    | breach _ => cases entry
    | found id steps =>
      cases entry
      exact Stmt.findingsEach_about _ program use distance found
  · contradiction

end ScopeScript
