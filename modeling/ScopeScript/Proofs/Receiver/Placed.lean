import Mathlib.Data.List.Forall2
import ScopeScript.Proofs.Grammar.Names
import ScopeScript.Proofs.Scope.Relabel
import ScopeScript.Proofs.Scope.Scoped
import ScopeScript.Proofs.Scope.Walk

/-! Where `this` stands in a program, told by the kinds of the scopes around it. Every `this` is noted
with its distance from the nearest scope of methods, and no name that is declared or written is
`this`. Other names do not matter here. -/
namespace ScopeScript

namespace Expr

mutual

def Placed (n : Notes) (kinds : List ScopeKind) : Expr → Prop
  | literal _ _ | var _ _ => True
  | this id keyword => keyword.text = thisName ∧ id < n.limit ∧
    ∃ d, kinds.findIdx? (· = .methods) = some d ∧ n.distances.get? id = some d
  | assign _ name value => name.text ≠ thisName ∧ value.Placed n kinds
  | group _ inner | unary _ _ _ inner | get _ inner _ => inner.Placed n kinds
  | binary _ _ _ left right | logical _ _ _ left right | set _ left _ right =>
    left.Placed n kinds ∧ right.Placed n kinds
  | call _ callee arguments _ => callee.Placed n kinds ∧ PlacedEach n kinds arguments

def PlacedEach (n : Notes) (kinds : List ScopeKind) : List Expr → Prop
  | [] => True
  | e :: rest => e.Placed n kinds ∧ PlacedEach n kinds rest

end

end Expr

def PlacedOptional (n : Notes) (kinds : List ScopeKind) : Option Expr → Prop
  | none => True
  | some e => e.Placed n kinds

mutual

def Stmt.Placed (n : Notes) (kinds : List ScopeKind) : Stmt → Prop
  | .expression value | .print value => value.Placed n kinds
  | .var name initial => name.text ≠ thisName ∧ PlacedOptional n kinds initial
  | .block body => Stmt.PlacedEach n (.block :: kinds) body
  | .ifThen condition body | .whileLoop condition body =>
    condition.Placed n kinds ∧ body.Placed n kinds
  | .ifElse condition yes no =>
    condition.Placed n kinds ∧ yes.Placed n kinds ∧ no.Placed n kinds
  | .function declaration => declaration.name.text ≠ thisName ∧ declaration.Placed n kinds
  | .returns _ value => PlacedOptional n kinds value
  | .classDecl name _ methods =>
    name.text ≠ thisName ∧ FunctionDecl.PlacedEach n (.methods :: kinds) methods

def Stmt.PlacedEach (n : Notes) (kinds : List ScopeKind) : List Stmt → Prop
  | [] => True
  | s :: rest => s.Placed n kinds ∧ Stmt.PlacedEach n kinds rest

def FunctionDecl.Placed (n : Notes) (kinds : List ScopeKind) : FunctionDecl → Prop
  | .mk _ params body =>
    (∀ p ∈ params, p.text ≠ thisName) ∧ Stmt.PlacedEach n (.function :: kinds) body

def FunctionDecl.PlacedEach (n : Notes) (kinds : List ScopeKind) : List FunctionDecl → Prop
  | [] => True
  | f :: rest => f.Placed n kinds ∧ FunctionDecl.PlacedEach n kinds rest

end

theorem FunctionDecl.placedEach_iff {n : Notes} {kinds : List ScopeKind}
    (fs : List FunctionDecl) : FunctionDecl.PlacedEach n kinds fs ↔ ∀ f ∈ fs, f.Placed n kinds := by
  induction fs with
  | nil => simp [FunctionDecl.PlacedEach]
  | cons f rest ih => simp [FunctionDecl.PlacedEach, ih]

/-! Later notes. -/

section Mono
variable {n n' : Notes}

mutual

theorem Expr.placed_mono {kinds : List ScopeKind} (later : n'.Extends n) :
    ∀ e : Expr, e.Placed n kinds → e.Placed n' kinds
  | .literal _ _, _ | .var _ _, _ => trivial
  | .this id _, ⟨text, below, d, nearest, noted⟩ =>
    ⟨text, Nat.lt_of_lt_of_le below later.limit, d, nearest, (later.same id below).trans noted⟩
  | .assign _ _ value, placed => ⟨placed.1, value.placed_mono later placed.2⟩
  | .group _ inner, placed | .unary _ _ _ inner, placed | .get _ inner _, placed =>
    inner.placed_mono later placed
  | .binary _ _ _ left right, placed | .logical _ _ _ left right, placed
  | .set _ left _ right, placed =>
    ⟨left.placed_mono later placed.1, right.placed_mono later placed.2⟩
  | .call _ callee arguments _, placed =>
    ⟨callee.placed_mono later placed.1, Expr.placedEach_mono later arguments placed.2⟩

theorem Expr.placedEach_mono {kinds : List ScopeKind} (later : n'.Extends n) :
    ∀ es : List Expr, Expr.PlacedEach n kinds es → Expr.PlacedEach n' kinds es
  | [], _ => trivial
  | e :: rest, placed =>
    ⟨e.placed_mono later placed.1, Expr.placedEach_mono later rest placed.2⟩

end

theorem placedOptional_mono {kinds : List ScopeKind} (later : n'.Extends n) (value : Option Expr)
    (placed : PlacedOptional n kinds value) : PlacedOptional n' kinds value := by
  cases value with
  | none => trivial
  | some e => exact e.placed_mono later placed

mutual

theorem Stmt.placed_mono {kinds : List ScopeKind} (later : n'.Extends n) :
    ∀ s : Stmt, s.Placed n kinds → s.Placed n' kinds
  | .expression value, placed | .print value, placed => value.placed_mono later placed
  | .var _ initial, placed => ⟨placed.1, placedOptional_mono later initial placed.2⟩
  | .block body, placed => Stmt.placedEach_mono later body placed
  | .ifThen condition body, placed | .whileLoop condition body, placed =>
    ⟨condition.placed_mono later placed.1, body.placed_mono later placed.2⟩
  | .ifElse condition yes no, placed =>
    ⟨condition.placed_mono later placed.1, yes.placed_mono later placed.2.1,
      no.placed_mono later placed.2.2⟩
  | .function declaration, placed => ⟨placed.1, declaration.placed_mono later placed.2⟩
  | .returns _ value, placed => placedOptional_mono later value placed
  | .classDecl _ _ methods, placed =>
    ⟨placed.1, FunctionDecl.placedEach_mono later methods placed.2⟩

theorem Stmt.placedEach_mono {kinds : List ScopeKind} (later : n'.Extends n) :
    ∀ body : List Stmt, Stmt.PlacedEach n kinds body → Stmt.PlacedEach n' kinds body
  | [], _ => trivial
  | s :: rest, placed =>
    ⟨s.placed_mono later placed.1, Stmt.placedEach_mono later rest placed.2⟩

theorem FunctionDecl.placed_mono {kinds : List ScopeKind} (later : n'.Extends n) :
    ∀ f : FunctionDecl, f.Placed n kinds → f.Placed n' kinds
  | .mk _ _ body, placed => ⟨placed.1, Stmt.placedEach_mono later body placed.2⟩

theorem FunctionDecl.placedEach_mono {kinds : List ScopeKind} (later : n'.Extends n) :
    ∀ fs : List FunctionDecl, FunctionDecl.PlacedEach n kinds fs →
      FunctionDecl.PlacedEach n' kinds fs
  | [], _ => trivial
  | f :: rest, placed =>
    ⟨f.placed_mono later placed.1, FunctionDecl.placedEach_mono later rest placed.2⟩

end

end Mono

/-! Programs that pass the checks. -/

/-- A context inside scopes of these kinds. -/
structure Context.Sited (c : Context) (kinds : List ScopeKind) : Prop where
  scopes : List.Forall₂ (fun names kind => thisName ∈ names ↔ kind = ScopeKind.methods)
    c.scopes.locals kinds
  inClass : c.inClass = true → .methods ∈ kinds

variable {n : Notes} {c : Context} {kinds : List ScopeKind}

namespace Context.Sited

theorem distance? (sited : c.Sited kinds) :
    c.scopes.distance? thisName = kinds.findIdx? (· = .methods) := by
  obtain ⟨⟨locals, globals⟩, _, _, _⟩ := c
  obtain ⟨alike, -⟩ := sited
  change List.Forall₂ _ locals kinds at alike
  change locals.findIdx? (·.contains thisName) = _
  induction alike with
  | nil => rfl
  | cons here _ ih =>
    rw [List.findIdx?_cons, List.findIdx?_cons, ih]
    simp [here]

theorem declare (sited : c.Sited kinds) {x : String} (other : x ≠ thisName) :
    (c.declare x).Sited kinds := by
  refine ⟨?_, sited.inClass⟩
  have alike := sited.scopes
  unfold Context.declare Scopes.declare
  generalize c.scopes.locals = locals at alike
  cases alike with
  | nil => exact .nil
  | cons here rest => exact .cons (by simp [here, Ne.symm other]) rest

theorem enter (sited : c.Sited kinds) {kind : ScopeKind} (plain : kind ≠ .methods) :
    (c.enter []).Sited (kind :: kinds) :=
  ⟨.cons (by simp [plain]) sited.scopes, fun inside => .tail _ (sited.inClass inside)⟩

theorem classBody (sited : c.Sited kinds) : c.classBody.Sited (.methods :: kinds) :=
  ⟨.cons (by simp) sited.scopes, fun _ => List.mem_cons_self⟩

theorem declareParams {params : List Lexeme} (sited : c.Sited kinds)
    (others : ∀ p ∈ params, p.text ≠ thisName) :
    Context.Sited { c with scopes := c.scopes.declareParams params } kinds := by
  induction params generalizing c with
  | nil => exact sited
  | cons p rest ih =>
    obtain ⟨first, others⟩ := List.forall_mem_cons.mp others
    exact ih (sited.declare first) others

theorem functionBody (sited : c.Sited kinds) {params : List Lexeme}
    (others : ∀ p ∈ params, p.text ≠ thisName) :
    (c.functionBody params).Sited (.function :: kinds) := by
  have entered : (c.enter []).Sited (.function :: kinds) := sited.enter nofun
  exact ⟨(entered.declareParams others).scopes, entered.inClass⟩

/-- A declaration of another name behind a statement changes nothing. -/
theorem after (sited : c.Sited kinds) {s : Stmt} (spelled : MarksSpelled s.marks) :
    (c.after s).Sited kinds := by
  cases s with
  | var name _ => exact sited.declare (spelled _ List.mem_cons_self)
  | function d => exact sited.declare (spelled (.declares .ofFunction d.name) List.mem_cons_self)
  | classDecl name _ _ =>
    exact sited.declare (spelled (.declares .ofClass name) List.mem_cons_self)
  | _ => exact sited

end Context.Sited

mutual

theorem Expr.placed (sited : c.Sited kinds) : ∀ {e : Expr}, e.Scoped n c.scopes →
    MarksSpelled e.marks → Clean (e.findings c) → e.Placed n kinds
  | .literal _ _, _, _, _ | .var _ _, _, _, _ => trivial
  | .group _ inner, agrees, spelled, clean | .unary _ _ _ inner, agrees, spelled, clean
  | .get _ inner _, agrees, spelled, clean => Expr.placed (e := inner) sited agrees spelled clean
  | .this id keyword, agrees, spelled, clean => by
    have text : keyword.text = thisName := spelled _ List.mem_cons_self
    have inside : c.inClass = true := by
      by_contra outside
      simp [Expr.findings, outside, Clean, Finding.breachAt, Finding.error?] at clean
    obtain ⟨below, noted⟩ := agrees
    rw [text, sited.distance?] at noted
    have around : (kinds.findIdx? (· = .methods)).isSome = true := by
      rw [List.findIdx?_isSome]
      simpa using sited.inClass inside
    obtain ⟨d, nearest⟩ := Option.isSome_iff_exists.mp around
    exact ⟨text, below, d, nearest, noted.trans nearest⟩
  | .assign _ name value, agrees, spelled, clean => by
    obtain ⟨inner, target⟩ := marksSpelled_append.mp spelled
    refine ⟨target _ List.mem_cons_self, ?_⟩
    exact Expr.placed sited agrees.1 inner (clean_append.mp clean).1
  | .binary _ _ _ left right, agrees, spelled, clean
  | .logical _ _ _ left right, agrees, spelled, clean
  | .set _ left _ right, agrees, spelled, clean => by
    obtain ⟨first, second⟩ := marksSpelled_append.mp spelled
    obtain ⟨clean, also⟩ := clean_append.mp clean
    exact ⟨Expr.placed sited agrees.1 first clean, Expr.placed sited agrees.2 second also⟩
  | .call _ callee arguments _, agrees, spelled, clean => by
    obtain ⟨first, second⟩ := marksSpelled_append.mp spelled
    obtain ⟨clean, also⟩ := clean_append.mp clean
    exact ⟨Expr.placed sited agrees.1 first clean, Expr.placedEach sited agrees.2 second also⟩

theorem Expr.placedEach (sited : c.Sited kinds) : ∀ {es : List Expr},
    Expr.ScopedEach n c.scopes es → MarksSpelled (Expr.marksEach es) →
      Clean (Expr.findingsEach c es) → Expr.PlacedEach n kinds es
  | [], _, _, _ => trivial
  | e :: rest, agrees, spelled, clean => by
    obtain ⟨first, second⟩ := marksSpelled_append.mp spelled
    obtain ⟨clean, also⟩ := clean_append.mp clean
    exact ⟨Expr.placed sited agrees.1 first clean, Expr.placedEach sited agrees.2 second also⟩

end

theorem placedOptional (sited : c.Sited kinds) {value : Option Expr}
    (agrees : ∀ e, value = some e → e.Scoped n c.scopes)
    (spelled : MarksSpelled (marksOptional value)) (clean : Clean (findingsOptional c value)) :
    PlacedOptional n kinds value := by
  cases value with
  | none => trivial
  | some e => exact Expr.placed sited (agrees e rfl) spelled clean

mutual

theorem Stmt.placed : ∀ {s : Stmt} {c : Context} {kinds : List ScopeKind}, c.Sited kinds →
    s.Scoped n c → MarksSpelled s.marks → Clean (s.findings c) → s.Placed n kinds
  | .expression _, _, _, sited, agrees, spelled, clean
  | .print _, _, _, sited, agrees, spelled, clean => Expr.placed sited agrees spelled clean
  | .var name initial, c, _, sited, agrees, spelled, clean => by
    obtain ⟨written, inside⟩ := marksSpelled_cons.mp spelled
    refine ⟨written, ?_⟩
    have value : Clean (findingsOptional (c.initialValueOf name.text) initial) :=
      (clean_append.mp clean).2
    have sited' : (c.initialValueOf name.text).Sited _ := ⟨sited.scopes, sited.inClass⟩
    refine placedOptional sited' ?_ (marksSpelled_append.mp inside).1 value
    rintro e rfl
    exact agrees.2
  | .block _, _, _, sited, agrees, spelled, clean => by
    obtain ⟨_, inside⟩ := marksSpelled_cons.mp spelled
    exact Stmt.placedEach (sited.enter nofun) agrees (marksSpelled_append.mp inside).1 clean
  | .ifThen _ _, _, _, sited, agrees, spelled, clean
  | .whileLoop _ _, _, _, sited, agrees, spelled, clean => by
    obtain ⟨first, second⟩ := marksSpelled_append.mp spelled
    obtain ⟨clean, also⟩ := clean_append.mp clean
    exact ⟨Expr.placed sited agrees.1 first clean, Stmt.placed sited agrees.2.2 second also⟩
  | .ifElse _ _ _, _, _, sited, agrees, spelled, clean => by
    obtain ⟨first, others⟩ := marksSpelled_append.mp spelled
    obtain ⟨second, third⟩ := marksSpelled_append.mp others
    obtain ⟨clean, last⟩ := clean_append.mp clean
    obtain ⟨clean, also⟩ := clean_append.mp clean
    exact ⟨Expr.placed sited agrees.1 first clean,
      Stmt.placed sited agrees.2.1.2 second also, Stmt.placed sited agrees.2.2.2 third last⟩
  | .function declaration, _, _, sited, agrees, spelled, clean => by
    obtain ⟨named, inside⟩ := marksSpelled_append.mp spelled
    have written : declaration.name.text ≠ thisName := named _ List.mem_cons_self
    exact ⟨written, FunctionDecl.placed (sited.declare written) agrees.2 inside
      (clean_append.mp clean).2⟩
  | .returns _ value, c, _, sited, agrees, spelled, clean => by
    have result : Clean (findingsOptional c value) := (clean_append.mp clean).2
    refine placedOptional sited ?_ (marksSpelled_cons.mp spelled).2 result
    rintro e rfl
    exact agrees.2
  | .classDecl name superclass methods, _, _, sited, agrees, spelled, clean => by
    obtain ⟨named, others⟩ := marksSpelled_append.mp spelled
    obtain ⟨_, others⟩ := marksSpelled_append.mp others
    have written : name.text ≠ thisName := named _ List.mem_cons_self
    have inside := (marksSpelled_cons.mp (marksSpelled_cons.mp others).2).2
    exact ⟨written, FunctionDecl.placedEach (sited.declare written).classBody agrees.2.2
      (marksSpelled_append.mp inside).1 (clean_append.mp clean).2⟩

theorem Stmt.placedEach : ∀ {body : List Stmt} {c : Context} {kinds : List ScopeKind},
    c.Sited kinds → Stmt.ScopedEach n c body → MarksSpelled (Stmt.marksEach body) →
      Clean (Stmt.findingsEach c body) → Stmt.PlacedEach n kinds body
  | [], _, _, _, _, _, _ => trivial
  | _ :: _, _, _, sited, agrees, spelled, clean => by
    obtain ⟨first, second⟩ := marksSpelled_append.mp spelled
    obtain ⟨clean, also⟩ := clean_append.mp clean
    exact ⟨Stmt.placed sited agrees.1 first clean,
      Stmt.placedEach (sited.after first) agrees.2 second also⟩

theorem FunctionDecl.placed : ∀ {f : FunctionDecl} {c : Context} {kinds : List ScopeKind},
    c.Sited kinds → f.Scoped n c → MarksSpelled f.marks → Clean (f.findings c) →
      f.Placed n kinds
  | .mk _ params body, _, _, sited, agrees, spelled, clean => by
    obtain ⟨_, inside⟩ := marksSpelled_cons.mp spelled
    obtain ⟨named, inside⟩ := marksSpelled_append.mp inside
    have written (p : Lexeme) (member : p ∈ params) : p.text ≠ thisName :=
      named (.declares .ofParameter p) (List.mem_flatMap.mpr ⟨p, member, List.mem_cons_self⟩)
    exact ⟨written, Stmt.placedEach (sited.functionBody written) agrees.2
      (marksSpelled_append.mp inside).1 (clean_append.mp clean).2⟩

theorem FunctionDecl.placedEach : ∀ {fs : List FunctionDecl} {c : Context}
    {kinds : List ScopeKind}, c.Sited kinds → FunctionDecl.ScopedEach n c fs →
      MarksSpelled (FunctionDecl.marksEach fs) → Clean (FunctionDecl.findingsEach c fs) →
      FunctionDecl.PlacedEach n kinds fs
  | [], _, _, _, _, _, _ => trivial
  | _ :: _, _, _, sited, agrees, spelled, clean => by
    obtain ⟨first, second⟩ := marksSpelled_append.mp spelled
    obtain ⟨clean, also⟩ := clean_append.mp clean
    exact ⟨FunctionDecl.placed sited agrees.1 first clean,
      FunctionDecl.placedEach sited agrees.2 second also⟩

end

end ScopeScript
