import Std.Data.TreeMap.Lemmas
import ScopeScript.Proofs.Tree.Shape
import ScopeScript.Scope.Resolve

/-! Code that agrees with the distances noted for it: every use of a name has exactly the
distance of its nearest declaration, or none if it is global. A program without scoping
errors agrees with its own findings once they are noted. -/
namespace ScopeScript

/-- The distances noted so far. Uses are numbered below `limit`. -/
structure Notes where
  distances : Distances
  limit : ExprId

/-- The number of a use, with the distance that its name has here. -/
def Scopes.Noted (n : Notes) (s : Scopes) (id : ExprId) (name : Lexeme) : Prop :=
  id < n.limit ∧ n.distances.get? id = s.distance? name.text

namespace Scopes

/-- A name that may be declared here. -/
def Fresh (s : Scopes) (name : String) : Prop :=
  match s.locals with
  | [] => True
  | scope :: _ => name ∉ scope

def FreshParams (s : Scopes) : List Lexeme → Prop
  | [] => True
  | p :: rest => s.Fresh p.text ∧ (s.declare p.text).FreshParams rest

end Scopes

namespace Expr

mutual

/-- Every use in an expression is noted as the scopes have it. -/
def Scoped (n : Notes) (s : Scopes) : Expr → Prop
  | literal _ _ => True
  | group _ inner => inner.Scoped n s
  | var id name | this id name => s.Noted n id name
  | assign id name value => value.Scoped n s ∧ s.Noted n id name
  | unary _ _ _ operand => operand.Scoped n s
  | binary _ _ _ left right | logical _ _ _ left right => left.Scoped n s ∧ right.Scoped n s
  | call _ callee arguments _ => callee.Scoped n s ∧ ScopedEach n s arguments
  | get _ object _ => object.Scoped n s
  | set _ object _ value => object.Scoped n s ∧ value.Scoped n s

def ScopedEach (n : Notes) (s : Scopes) : List Expr → Prop
  | [] => True
  | e :: rest => e.Scoped n s ∧ ScopedEach n s rest

end

end Expr

mutual

/-- Every use in a statement is noted as its context has it, and nothing in it breaks the
rules on declarations and returns. -/
def Stmt.Scoped (n : Notes) (c : Context) : Stmt → Prop
  | .expression value | .print value => value.Scoped n c.scopes
  | .var name initial =>
    c.scopes.Fresh name.text ∧
      match initial with
      | none => True
      | some e => e.Scoped n c.scopes
  | .block body => Stmt.ScopedEach n (c.enter []) body
  | .ifThen condition yes =>
    condition.Scoped n c.scopes ∧ yes.isDeclaration = false ∧ yes.Scoped n c
  | .ifElse condition yes no =>
    condition.Scoped n c.scopes ∧ (yes.isDeclaration = false ∧ yes.Scoped n c) ∧
      no.isDeclaration = false ∧ no.Scoped n c
  | .whileLoop condition body =>
    condition.Scoped n c.scopes ∧ body.isDeclaration = false ∧ body.Scoped n c
  | .function declaration =>
    c.scopes.Fresh declaration.name.text ∧
      declaration.Scoped n (c.declare declaration.name.text)
  | .returns _ value =>
    c.inFunction = true ∧
      match value with
      | none => True
      | some e => e.Scoped n c.scopes
  | .classDecl name superclass methods =>
    c.scopes.Fresh name.text ∧
      (match superclass with
      | none => True
      | some s => (c.declare name.text).scopes.Noted n s.id s.name) ∧
      FunctionDecl.ScopedEach n (c.declare name.text).classBody methods

def Stmt.ScopedEach (n : Notes) (c : Context) : List Stmt → Prop
  | [] => True
  | s :: rest => s.Scoped n c ∧ Stmt.ScopedEach n (c.after s) rest

def FunctionDecl.Scoped (n : Notes) (c : Context) : FunctionDecl → Prop
  | .mk _ params body =>
    (c.scopes.enter []).FreshParams params ∧ Stmt.ScopedEach n (c.functionBody params) body

def FunctionDecl.ScopedEach (n : Notes) (c : Context) : List FunctionDecl → Prop
  | [] => True
  | f :: rest => f.Scoped n c ∧ FunctionDecl.ScopedEach n c rest

end

/-! Code that agrees with what is noted still does when more is noted. -/

namespace Notes

/-- Later notes: nothing noted for the uses so far has changed. -/
structure Extends (after before : Notes) : Prop where
  limit : before.limit ≤ after.limit
  same : ∀ id < before.limit, after.distances.get? id = before.distances.get? id

theorem Extends.refl (n : Notes) : n.Extends n := ⟨Nat.le_refl _, fun _ _ => rfl⟩

end Notes

section Mono
variable {n n' : Notes}

theorem Scopes.Noted.mono {s : Scopes} {id : ExprId} {name : Lexeme} (noted : s.Noted n id name)
    (later : n'.Extends n) : s.Noted n' id name :=
  ⟨Nat.lt_of_lt_of_le noted.1 later.limit, (later.same id noted.1).trans noted.2⟩

mutual

theorem Expr.scoped_mono {s : Scopes} (later : n'.Extends n) :
    ∀ e : Expr, e.Scoped n s → e.Scoped n' s
  | .literal _ _, _ => trivial
  | .group _ inner, agrees => inner.scoped_mono later agrees
  | .var _ _, agrees | .this _ _, agrees => Scopes.Noted.mono agrees later
  | .assign _ _ value, agrees => ⟨value.scoped_mono later agrees.1, agrees.2.mono later⟩
  | .unary _ _ _ operand, agrees => operand.scoped_mono later agrees
  | .binary _ _ _ left right, agrees | .logical _ _ _ left right, agrees
  | .set _ left _ right, agrees =>
    ⟨left.scoped_mono later agrees.1, right.scoped_mono later agrees.2⟩
  | .call _ callee arguments _, agrees =>
    ⟨callee.scoped_mono later agrees.1, Expr.scopedEach_mono later arguments agrees.2⟩
  | .get _ object _, agrees => object.scoped_mono later agrees

theorem Expr.scopedEach_mono {s : Scopes} (later : n'.Extends n) :
    ∀ es : List Expr, Expr.ScopedEach n s es → Expr.ScopedEach n' s es
  | [], _ => trivial
  | e :: rest, agrees =>
    ⟨e.scoped_mono later agrees.1, Expr.scopedEach_mono later rest agrees.2⟩

end

mutual

theorem Stmt.scoped_mono {c : Context} (later : n'.Extends n) :
    ∀ s : Stmt, s.Scoped n c → s.Scoped n' c
  | .expression value, agrees | .print value, agrees => value.scoped_mono later agrees
  | .var _ none, agrees | .returns _ none, agrees => agrees
  | .var _ (some e), agrees | .returns _ (some e), agrees =>
    ⟨agrees.1, e.scoped_mono later agrees.2⟩
  | .block body, agrees => Stmt.scopedEach_mono later body agrees
  | .ifThen condition body, agrees | .whileLoop condition body, agrees =>
    ⟨condition.scoped_mono later agrees.1, agrees.2.1, body.scoped_mono later agrees.2.2⟩
  | .ifElse condition yes no, agrees =>
    ⟨condition.scoped_mono later agrees.1,
      ⟨agrees.2.1.1, yes.scoped_mono later agrees.2.1.2⟩,
      agrees.2.2.1, no.scoped_mono later agrees.2.2.2⟩
  | .function declaration, agrees => ⟨agrees.1, declaration.scoped_mono later agrees.2⟩
  | .classDecl _ none methods, agrees =>
    ⟨agrees.1, trivial, FunctionDecl.scopedEach_mono later methods agrees.2.2⟩
  | .classDecl _ (some _) methods, agrees =>
    ⟨agrees.1, Scopes.Noted.mono agrees.2.1 later,
      FunctionDecl.scopedEach_mono later methods agrees.2.2⟩

theorem Stmt.scopedEach_mono {c : Context} (later : n'.Extends n) :
    ∀ body : List Stmt, Stmt.ScopedEach n c body → Stmt.ScopedEach n' c body
  | [], _ => trivial
  | s :: rest, agrees =>
    ⟨s.scoped_mono later agrees.1, Stmt.scopedEach_mono later rest agrees.2⟩

theorem FunctionDecl.scoped_mono {c : Context} (later : n'.Extends n) :
    ∀ f : FunctionDecl, f.Scoped n c → f.Scoped n' c
  | .mk _ _ body, agrees => ⟨agrees.1, Stmt.scopedEach_mono later body agrees.2⟩

theorem FunctionDecl.scopedEach_mono {c : Context} (later : n'.Extends n) :
    ∀ fs : List FunctionDecl, FunctionDecl.ScopedEach n c fs → FunctionDecl.ScopedEach n' c fs
  | [], _ => trivial
  | f :: rest, agrees =>
    ⟨f.scoped_mono later agrees.1, FunctionDecl.scopedEach_mono later rest agrees.2⟩

end

end Mono

/-- Findings without a breach. -/
def Clean (findings : List Finding) : Prop := findings.filterMap Finding.error? = []

theorem clean_append {findings more : List Finding} :
    Clean (findings ++ more) ↔ Clean findings ∧ Clean more := by
  simp only [Clean, List.filterMap_append, List.append_eq_nil_iff]

/-- The findings of code whose nodes have these numbers: no breach, and every number is noted
as the findings have it. -/
structure Faithful (n : Notes) (ids : List ExprId) (findings : List Finding) : Prop where
  clean : findings.filterMap Finding.error? = []
  noted : ∀ id ∈ ids, id < n.limit ∧
    n.distances.get? id = (findings.filterMap Finding.entry?).lookup id

/-- Findings on nodes with these numbers only, in the order of the numbers. -/
def Finding.Within (ids : List ExprId) (findings : List Finding) : Prop :=
  ((findings.filterMap Finding.entry?).map Prod.fst).Sublist ids

namespace Finding

theorem Within.lookup_eq_none {findings : List Finding} {ids : List ExprId} {id : ExprId}
    (within : Within ids findings) (outside : id ∉ ids) :
    (findings.filterMap Finding.entry?).lookup id = none := by
  rw [List.lookup_eq_none_iff]
  intro entry member
  have inside := within.subset (List.mem_map_of_mem member)
  simp only [bne_iff_ne, ne_eq]
  rintro rfl
  exact outside inside

theorem Within.append {findings more : List Finding} {ids others : List ExprId}
    (first : Within ids findings) (second : Within others more) :
    Within (ids ++ others) (findings ++ more) := by
  unfold Within
  rw [List.filterMap_append, List.map_append]
  exact List.Sublist.append first second

theorem Within.mono {findings : List Finding} {ids others : List ExprId}
    (within : Within ids findings) (sublist : ids.Sublist others) : Within others findings :=
  List.Sublist.trans within sublist

theorem within_nil (ids : List ExprId) : Within ids [] := List.nil_sublist ids

theorem within_breach (ids : List ExprId) (cause : ScopeCause) (l : Lexeme) :
    Within ids [breachAt cause l] := List.nil_sublist ids

theorem Within.ite {condition : Prop} [Decidable condition] {findings more : List Finding}
    {ids : List ExprId} (first : Within ids findings) (second : Within ids more) :
    Within ids (if condition then findings else more) := by
  split
  · exact first
  · exact second

end Finding

open Finding (Within)

theorem Faithful.split {n : Notes} {ids others : List ExprId} {findings more : List Finding}
    (faithful : Faithful n (ids ++ others) (findings ++ more)) (nodup : (ids ++ others).Nodup)
    (first : Within ids findings) (second : Within others more) :
    Faithful n ids findings ∧ Faithful n others more := by
  obtain ⟨clean, noted⟩ := faithful
  rw [List.filterMap_append, List.append_eq_nil_iff] at clean
  have apart := (List.nodup_append.mp nodup).2.2
  refine ⟨⟨clean.1, fun id member => ?_⟩, ⟨clean.2, fun id member => ?_⟩⟩
  · have outside : id ∉ others := fun h => apart id member id h rfl
    have h := noted id (List.mem_append_left _ member)
    rwa [List.filterMap_append, List.lookup_append, second.lookup_eq_none outside,
      Option.or_none] at h
  · have outside : id ∉ ids := fun h => apart id h id member rfl
    have h := noted id (List.mem_append_right _ member)
    rwa [List.filterMap_append, List.lookup_append, first.lookup_eq_none outside,
      Option.none_or] at h

/-! Findings are about the nodes of the code they belong to. -/

theorem Context.reference_within (c : Context) (id : ExprId) (name : Lexeme) :
    Within [id] (c.reference id name) := by
  unfold reference
  split
  · exact List.Sublist.refl [id]
  · exact (Finding.within_breach _ _ _).ite (Finding.within_nil _)

theorem Scopes.duplicate_within (s : Scopes) (name : Lexeme) (ids : List ExprId) :
    Within ids (s.duplicate name) := by
  unfold duplicate
  split
  · exact Finding.within_nil _
  · exact (Finding.within_breach _ _ _).ite (Finding.within_nil _)

theorem Scopes.duplicateParams_within (s : Scopes) (params : List Lexeme) (ids : List ExprId) :
    Within ids (s.duplicateParams params) := by
  induction params generalizing s with
  | nil => exact Finding.within_nil _
  | cons p rest ih => exact (s.duplicate_within p []).append (ih (s.declare p.text))

mutual

theorem Expr.findings_within (c : Context) : ∀ e : Expr, Within e.ids (e.findings c)
  | .literal id _ => Finding.within_nil _
  | .group id inner => (inner.findings_within c).mono (List.sublist_append_left _ _)
  | .var id name => c.reference_within id name
  | .this id keyword => by
    exact (c.reference_within id keyword).ite (Finding.within_breach _ _ _)
  | .assign id name value => (value.findings_within c).append (c.reference_within id name)
  | .unary id _ _ operand => (operand.findings_within c).mono (List.sublist_append_left _ _)
  | .binary id _ _ left right =>
    (left.findings_within c).append
      ((right.findings_within c).mono (List.sublist_append_left _ _))
  | .logical id _ _ left right =>
    (left.findings_within c).append
      ((right.findings_within c).mono (List.sublist_append_left _ _))
  | .call id callee arguments _ =>
    (callee.findings_within c).append
      ((Expr.findingsEach_within c arguments).mono (List.sublist_append_left _ _))
  | .get id object _ => (object.findings_within c).mono (List.sublist_append_left _ _)
  | .set id object _ value =>
    (object.findings_within c).append
      ((value.findings_within c).mono (List.sublist_append_left _ _))

theorem Expr.findingsEach_within (c : Context) :
    ∀ es : List Expr, Within (Expr.idsEach es) (Expr.findingsEach c es)
  | [] => Finding.within_nil _
  | e :: rest => (e.findings_within c).append (Expr.findingsEach_within c rest)

end

mutual

theorem Stmt.findings_within (c : Context) : ∀ s : Stmt, Within s.ids (s.findings c)
  | .expression value | .print value => value.findings_within c
  | .var name none => by
    simpa only [Stmt.findings, List.append_nil] using c.scopes.duplicate_within name _
  | .var name (some e) => by
    have h := (c.scopes.duplicate_within name []).append
      (e.findings_within (c.initialValueOf name.text))
    exact h
  | .block body => Stmt.findingsEach_within (c.enter []) body
  | .ifThen condition yes => (condition.findings_within c).append (yes.findings_within c)
  | .ifElse condition yes no => by
    have h := ((condition.findings_within c).append (yes.findings_within c)).append
      (no.findings_within c)
    simpa only [Stmt.ids, Stmt.findings, List.append_assoc] using h
  | .whileLoop condition body => (condition.findings_within c).append (body.findings_within c)
  | .function declaration => by
    have h := (c.scopes.duplicate_within declaration.name []).append
      (declaration.findings_within (c.declare declaration.name.text))
    exact h
  | .returns keyword none => by
    have outside : Within []
        (if c.inFunction then [] else [.breachAt .topLevelReturn keyword]) :=
      (Finding.within_nil _).ite (Finding.within_breach _ _ _)
    exact outside.append (Finding.within_nil [])
  | .returns keyword (some e) => by
    have outside : Within []
        (if c.inFunction then [] else [.breachAt .topLevelReturn keyword]) :=
      (Finding.within_nil _).ite (Finding.within_breach _ _ _)
    exact outside.append (e.findings_within c)
  | .classDecl name none methods => by
    have h := (c.scopes.duplicate_within name []).append
      (FunctionDecl.findingsEach_within (c.declare name.text).classBody methods)
    simpa only [Stmt.findings, List.append_nil] using! h
  | .classDecl name (some s) methods => by
    have own : Within []
        (if s.name.text = name.text then [.breachAt .ownSuperclass s.name] else []) :=
      (Finding.within_breach _ _ _).ite (Finding.within_nil _)
    have h := ((c.scopes.duplicate_within name []).append
        (own.append ((c.declare name.text).reference_within s.id s.name))).append
      (FunctionDecl.findingsEach_within (c.declare name.text).classBody methods)
    exact h

theorem Stmt.findingsEach_within (c : Context) :
    ∀ body : List Stmt, Within (Stmt.idsEach body) (Stmt.findingsEach c body)
  | [] => Finding.within_nil _
  | s :: rest => (s.findings_within c).append (Stmt.findingsEach_within (c.after s) rest)

theorem FunctionDecl.findings_within (c : Context) :
    ∀ f : FunctionDecl, Within f.ids (f.findings c)
  | .mk _ params body => by
    have h := ((c.scopes.enter []).duplicateParams_within params []).append
      (Stmt.findingsEach_within (c.functionBody params) body)
    exact h

theorem FunctionDecl.findingsEach_within (c : Context) :
    ∀ fs : List FunctionDecl, Within (FunctionDecl.idsEach fs) (FunctionDecl.findingsEach c fs)
  | [] => Finding.within_nil _
  | f :: rest => (f.findings_within c).append (FunctionDecl.findingsEach_within c rest)

end

/-! Findings without a breach that are noted make the code agree with what is noted. -/

theorem Context.noted_of_reference {n : Notes} {c : Context} {id : ExprId} {name : Lexeme}
    (faithful : Faithful n [id] (c.reference id name)) : c.scopes.Noted n id name := by
  obtain ⟨below, found⟩ := faithful.noted id (List.mem_singleton_self _)
  refine ⟨below, found.trans ?_⟩
  have clean := faithful.clean
  unfold reference at clean ⊢
  cases distance : c.scopes.distance? name.text with
  | some d => simp [Finding.entry?]
  | none =>
    simp only [distance] at clean
    split at clean
    · simp [Finding.breachAt, Finding.error?] at clean
    · next global => simp [global]

theorem Scopes.fresh_of_duplicate {s : Scopes} {name : Lexeme}
    (clean : (s.duplicate name).filterMap Finding.error? = []) : s.Fresh name.text := by
  cases inside : s.locals with
  | nil => simp only [Fresh, inside]
  | cons scope outer =>
    simp only [Fresh, inside]
    intro member
    simp [duplicate, inside, member, Finding.breachAt, Finding.error?] at clean

theorem Scopes.freshParams_of_duplicateParams {s : Scopes} {params : List Lexeme}
    (clean : (s.duplicateParams params).filterMap Finding.error? = []) :
    s.FreshParams params := by
  induction params generalizing s with
  | nil => trivial
  | cons p rest ih =>
    rw [duplicateParams, List.filterMap_append, List.append_eq_nil_iff] at clean
    exact ⟨fresh_of_duplicate clean.1, ih clean.2⟩

/-- Findings on nothing numbered in front of the others do not matter for these. -/
theorem Faithful.drop {n : Notes} {ids : List ExprId} {findings more : List Finding}
    (faithful : Faithful n ids (findings ++ more)) (within : Within [] findings) :
    Faithful n ids more := by
  obtain ⟨clean, noted⟩ := faithful
  rw [List.filterMap_append, List.append_eq_nil_iff] at clean
  refine ⟨clean.2, fun id member => ?_⟩
  have h := noted id member
  rwa [List.filterMap_append, List.lookup_append, within.lookup_eq_none List.not_mem_nil,
    Option.none_or] at h

/-- Only some of the numbers. -/
theorem Faithful.subset {n : Notes} {ids others : List ExprId} {findings : List Finding}
    (faithful : Faithful n ids findings) (subset : others ⊆ ids) :
    Faithful n others findings :=
  ⟨faithful.clean, fun id member => faithful.noted id (subset member)⟩

theorem Faithful.clean_left {n : Notes} {ids : List ExprId} {findings more : List Finding}
    (faithful : Faithful n ids (findings ++ more)) :
    findings.filterMap Finding.error? = [] := by
  have clean := faithful.clean
  rw [List.filterMap_append, List.append_eq_nil_iff] at clean
  exact clean.1

/-- Two parts of a node, numbered before the node itself. -/
theorem Faithful.both {n : Notes} {ids others own : List ExprId} {findings more : List Finding}
    {first second : Prop} (faithful : Faithful n (ids ++ (others ++ own)) (findings ++ more))
    (nodup : (ids ++ (others ++ own)).Nodup) (firstWithin : Within ids findings)
    (secondWithin : Within others more)
    (onFirst : ids.Nodup → Faithful n ids findings → first)
    (onSecond : others.Nodup → Faithful n others more → second) : first ∧ second := by
  rw [← List.append_assoc] at faithful nodup
  have nodup := (List.nodup_append.mp nodup).1
  obtain ⟨left, right⟩ := (faithful.subset (List.subset_append_left _ _)).split nodup
    firstWithin secondWithin
  obtain ⟨nodupLeft, nodupRight, _⟩ := List.nodup_append.mp nodup
  exact ⟨onFirst nodupLeft left, onSecond nodupRight right⟩

mutual

theorem Expr.scoped_of_findings {n : Notes} {c : Context} :
    ∀ {e : Expr}, e.ids.Nodup → Faithful n e.ids (e.findings c) → e.Scoped n c.scopes
  | .literal _ _, _, _ => trivial
  | .group _ inner, nodup, faithful =>
    inner.scoped_of_findings (List.nodup_append.mp nodup).1
      (faithful.subset (List.subset_append_left _ _))
  | .var _ _, _, faithful => Context.noted_of_reference faithful
  | .this id keyword, _, faithful => by
    unfold Expr.findings at faithful
    split at faithful
    · exact Context.noted_of_reference faithful
    · have clean := faithful.clean
      simp [Finding.breachAt, Finding.error?] at clean
  | .assign id name value, nodup, faithful => by
    obtain ⟨inner, use⟩ := faithful.split nodup (value.findings_within c)
      (c.reference_within id name)
    exact ⟨value.scoped_of_findings (List.nodup_append.mp nodup).1 inner,
      Context.noted_of_reference use⟩
  | .unary _ _ _ operand, nodup, faithful =>
    operand.scoped_of_findings (List.nodup_append.mp nodup).1
      (faithful.subset (List.subset_append_left _ _))
  | .binary _ _ _ left right, nodup, faithful | .logical _ _ _ left right, nodup, faithful =>
    faithful.both nodup (left.findings_within c) (right.findings_within c)
      left.scoped_of_findings right.scoped_of_findings
  | .set _ left _ right, nodup, faithful =>
    faithful.both nodup (left.findings_within c) (right.findings_within c)
      left.scoped_of_findings right.scoped_of_findings
  | .call _ callee arguments _, nodup, faithful =>
    faithful.both nodup (callee.findings_within c) (Expr.findingsEach_within c arguments)
      callee.scoped_of_findings Expr.scopedEach_of_findings
  | .get _ object _, nodup, faithful =>
    object.scoped_of_findings (List.nodup_append.mp nodup).1
      (faithful.subset (List.subset_append_left _ _))

theorem Expr.scopedEach_of_findings {n : Notes} {c : Context} :
    ∀ {es : List Expr}, (Expr.idsEach es).Nodup →
      Faithful n (Expr.idsEach es) (Expr.findingsEach c es) → Expr.ScopedEach n c.scopes es
  | [], _, _ => trivial
  | e :: rest, nodup, faithful => by
    obtain ⟨first, others⟩ := faithful.split nodup (e.findings_within c)
      (Expr.findingsEach_within c rest)
    obtain ⟨nodupFirst, nodupRest, _⟩ := List.nodup_append.mp nodup
    exact ⟨e.scoped_of_findings nodupFirst first,
      Expr.scopedEach_of_findings nodupRest others⟩

end

mutual

theorem Stmt.scoped_of_findings {n : Notes} {c : Context} :
    ∀ {s : Stmt}, s.Ranked → s.ids.Nodup → Faithful n s.ids (s.findings c) → s.Scoped n c
  | .expression value, _, nodup, faithful | .print value, _, nodup, faithful =>
    value.scoped_of_findings nodup faithful
  | .var name none, _, _, faithful => ⟨Scopes.fresh_of_duplicate faithful.clean_left, trivial⟩
  | .var name (some e), _, nodup, faithful => by
    have inner : Faithful n e.ids (e.findings (c.initialValueOf name.text)) :=
      faithful.drop (c.scopes.duplicate_within name [])
    have initial := Expr.scoped_of_findings nodup inner
    exact ⟨Scopes.fresh_of_duplicate faithful.clean_left, initial⟩
  | .block body, ranked, nodup, faithful => Stmt.scopedEach_of_findings ranked nodup faithful
  | .ifThen condition yes, ranked, nodup, faithful => by
    obtain ⟨test, branch⟩ := faithful.split nodup (condition.findings_within c)
      (yes.findings_within c)
    obtain ⟨nodupTest, nodupBranch, _⟩ := List.nodup_append.mp nodup
    exact ⟨condition.scoped_of_findings nodupTest test, ranked.1,
      yes.scoped_of_findings ranked.2 nodupBranch branch⟩
  | .ifElse condition yes no, ranked, nodup, faithful => by
    simp only [Stmt.findings, List.append_assoc] at faithful
    obtain ⟨test, branches⟩ := faithful.split nodup (condition.findings_within c)
      ((yes.findings_within c).append (no.findings_within c))
    obtain ⟨nodupTest, nodupBranches, _⟩ := List.nodup_append.mp nodup
    obtain ⟨first, second⟩ := branches.split nodupBranches (yes.findings_within c)
      (no.findings_within c)
    obtain ⟨nodupYes, nodupNo, _⟩ := List.nodup_append.mp nodupBranches
    exact ⟨condition.scoped_of_findings nodupTest test,
      ⟨ranked.1.1, yes.scoped_of_findings ranked.1.2 nodupYes first⟩,
      ranked.2.1, no.scoped_of_findings ranked.2.2 nodupNo second⟩
  | .whileLoop condition body, ranked, nodup, faithful => by
    obtain ⟨test, inside⟩ := faithful.split nodup (condition.findings_within c)
      (body.findings_within c)
    obtain ⟨nodupTest, nodupBody, _⟩ := List.nodup_append.mp nodup
    exact ⟨condition.scoped_of_findings nodupTest test, ranked.1,
      body.scoped_of_findings ranked.2 nodupBody inside⟩
  | .function declaration, ranked, nodup, faithful =>
    ⟨Scopes.fresh_of_duplicate faithful.clean_left,
      declaration.scoped_of_findings ranked nodup
        (faithful.drop (c.scopes.duplicate_within declaration.name []))⟩
  | .returns keyword value, _, nodup, faithful => by
    have clean := faithful.clean_left
    have allowed : c.inFunction = true := by
      cases inside : c.inFunction with
      | true => rfl
      | false => simp [inside, Finding.breachAt, Finding.error?] at clean
    simp only [Stmt.findings, allowed, if_true, List.nil_append] at faithful
    cases value with
    | none => exact ⟨allowed, trivial⟩
    | some e => exact ⟨allowed, e.scoped_of_findings nodup faithful⟩
  | .classDecl name none methods, ranked, nodup, faithful => by
    simp only [Stmt.findings, List.append_nil] at faithful
    exact ⟨Scopes.fresh_of_duplicate faithful.clean_left, trivial,
      FunctionDecl.scopedEach_of_findings ranked nodup
        (faithful.drop (c.scopes.duplicate_within name []))⟩
  | .classDecl name (some s) methods, ranked, nodup, faithful => by
    simp only [Stmt.findings, List.append_assoc] at faithful
    have own : Within []
        (if s.name.text = name.text then [.breachAt .ownSuperclass s.name] else []) :=
      (Finding.within_breach _ _ _).ite (Finding.within_nil _)
    have rest := (faithful.drop (c.scopes.duplicate_within name [])).drop own
    obtain ⟨use, inside⟩ := rest.split nodup ((c.declare name.text).reference_within s.id s.name)
      (FunctionDecl.findingsEach_within (c.declare name.text).classBody methods)
    exact ⟨Scopes.fresh_of_duplicate faithful.clean_left, Context.noted_of_reference use,
      FunctionDecl.scopedEach_of_findings ranked (List.nodup_append.mp nodup).2.1 inside⟩

theorem Stmt.scopedEach_of_findings {n : Notes} {c : Context} :
    ∀ {body : List Stmt}, Stmt.RankedEach body → (Stmt.idsEach body).Nodup →
      Faithful n (Stmt.idsEach body) (Stmt.findingsEach c body) → Stmt.ScopedEach n c body
  | [], _, _, _ => trivial
  | s :: rest, ranked, nodup, faithful => by
    obtain ⟨first, others⟩ := faithful.split nodup (s.findings_within c)
      (Stmt.findingsEach_within (c.after s) rest)
    obtain ⟨nodupFirst, nodupRest, _⟩ := List.nodup_append.mp nodup
    exact ⟨s.scoped_of_findings ranked.1 nodupFirst first,
      Stmt.scopedEach_of_findings ranked.2 nodupRest others⟩

theorem FunctionDecl.scoped_of_findings {n : Notes} {c : Context} :
    ∀ {f : FunctionDecl}, f.Ranked → f.ids.Nodup → Faithful n f.ids (f.findings c) →
      f.Scoped n c
  | .mk _ params _, ranked, nodup, faithful =>
    ⟨Scopes.freshParams_of_duplicateParams faithful.clean_left,
      Stmt.scopedEach_of_findings ranked nodup
        (faithful.drop ((c.scopes.enter []).duplicateParams_within params []))⟩

theorem FunctionDecl.scopedEach_of_findings {n : Notes} {c : Context} :
    ∀ {fs : List FunctionDecl}, FunctionDecl.RankedEach fs → (FunctionDecl.idsEach fs).Nodup →
      Faithful n (FunctionDecl.idsEach fs) (FunctionDecl.findingsEach c fs) →
      FunctionDecl.ScopedEach n c fs
  | [], _, _, _ => trivial
  | f :: rest, ranked, nodup, faithful => by
    obtain ⟨first, others⟩ := faithful.split nodup (f.findings_within c)
      (FunctionDecl.findingsEach_within c rest)
    obtain ⟨nodupFirst, nodupRest, _⟩ := List.nodup_append.mp nodup
    exact ⟨f.scoped_of_findings ranked.1 nodupFirst first,
      FunctionDecl.scopedEach_of_findings ranked.2 nodupRest others⟩

end

/-! Noting the findings of a program. -/

theorem Distances.get?_note (d : Distances) {entries : List (ExprId × Nat)}
    (nodup : (entries.map Prod.fst).Nodup) (id : ExprId) :
    (d.note entries).get? id = (entries.lookup id).or (d.get? id) := by
  induction entries generalizing d with
  | nil => rfl
  | cons entry rest ih =>
    obtain ⟨key, distance⟩ := entry
    obtain ⟨unique, nodup⟩ := List.nodup_cons.mp nodup
    have step : Distances.note d ((key, distance) :: rest) =
        Distances.note (d.insert key distance) rest := rfl
    rw [step, ih _ nodup, List.lookup_cons]
    by_cases same : id = key
    · subst same
      have absent : rest.lookup id = none := by
        rw [List.lookup_eq_none_iff]
        intro entry member
        simp only [bne_iff_ne, ne_eq]
        rintro rfl
        exact unique (List.mem_map.mpr ⟨entry, member, rfl⟩)
      simp [absent]
    · have other : (id == key) = false := by simpa using same
      have different : key ≠ id := fun h => same h.symm
      simp [other, Std.TreeMap.getElem?_insert, different]

/-- A program that passed the static checks agrees with its entries once they are noted, if its
nodes have numbers of their own that nothing was noted for before. -/
theorem resolve_scoped {globals : List String} {program : List Stmt}
    {entries : List (ExprId × Nat)} (resolved : resolve globals program = .ok entries)
    (ranked : Stmt.RankedEach program) (nodup : (Stmt.idsEach program).Nodup)
    {d : Distances} {limit : ExprId} (below : ∀ id ∈ Stmt.idsEach program, id < limit)
    (unused : ∀ id ∈ Stmt.idsEach program, d.get? id = none) :
    Stmt.ScopedEach ⟨d.note entries, limit⟩ { scopes := ⟨[], globals⟩ } program := by
  simp only [resolve] at resolved
  split at resolved
  · next clean =>
    cases resolved
    have within : Within (Stmt.idsEach program) (programFindings globals program) :=
      Stmt.findingsEach_within _ program
    refine Stmt.scopedEach_of_findings ranked nodup ⟨clean, fun id member => ⟨below id member, ?_⟩⟩
    rw [Distances.get?_note d (nodup.sublist within), unused id member, Option.or_none]
    rfl
  · contradiction

end ScopeScript
