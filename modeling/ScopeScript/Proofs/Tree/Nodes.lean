import ScopeScript.Proofs.Tree.Shape

/-! The expression nodes of a tree with their numbers. -/
namespace ScopeScript

namespace Expr

/-- The operands of a node from left to right. -/
def parts : Expr → List Expr
  | literal _ _ | var _ _ | this _ _ => []
  | group _ inner => [inner]
  | assign _ _ value => [value]
  | unary _ _ _ operand => [operand]
  | binary _ _ _ left right | logical _ _ _ left right => [left, right]
  | call _ callee arguments _ => callee :: arguments
  | get _ object _ => [object]
  | set _ object _ value => [object, value]

mutual

/-- An expression and all expressions inside it, operands before the node they belong to. -/
def nodes : Expr → List Expr
  | e@(literal _ _) | e@(var _ _) | e@(this _ _) => [e]
  | e@(group _ inner) => inner.nodes ++ [e]
  | e@(assign _ _ value) => value.nodes ++ [e]
  | e@(unary _ _ _ operand) => operand.nodes ++ [e]
  | e@(binary _ _ _ left right) | e@(logical _ _ _ left right) => left.nodes ++ (right.nodes ++ [e])
  | e@(call _ callee arguments _) => callee.nodes ++ (nodesEach arguments ++ [e])
  | e@(get _ object _) => object.nodes ++ [e]
  | e@(set _ object _ value) => object.nodes ++ (value.nodes ++ [e])

def nodesEach : List Expr → List Expr
  | [] => []
  | e :: rest => e.nodes ++ nodesEach rest

end

theorem nodesEach_eq_flatMap (es : List Expr) : nodesEach es = es.flatMap nodes := by
  induction es with
  | nil => rfl
  | cons e rest ih => rw [nodesEach, ih, List.flatMap_cons]

/-- A node stands behind its operands. -/
theorem nodes_eq (e : Expr) : e.nodes = e.parts.flatMap nodes ++ [e] := by
  cases e <;> simp [nodes, parts, nodesEach_eq_flatMap]

theorem ids_eq (e : Expr) : e.ids = e.parts.flatMap ids ++ [e.id] := by
  cases e <;> simp [ids, parts, idsEach_eq_flatMap, Expr.id]

/-- The expressions that an expression is built from are smaller. -/
theorem sizeOf_parts {e part : Expr} (member : part ∈ e.parts) : sizeOf part < sizeOf e := by
  cases e with
  | literal _ _ | var _ _ | this _ _ => nomatch member
  | group _ _ | assign _ _ _ | unary _ _ _ _ | get _ _ _ =>
    rw [List.mem_singleton.mp member]
    simp only [group.sizeOf_spec, assign.sizeOf_spec, unary.sizeOf_spec, get.sizeOf_spec]
    omega
  | binary _ _ _ _ _ | logical _ _ _ _ _ | set _ _ _ _ =>
    simp only [binary.sizeOf_spec, logical.sizeOf_spec, set.sizeOf_spec]
    rcases List.mem_cons.mp member with rfl | member
    · omega
    · rw [List.mem_singleton.mp member]
      omega
  | call _ _ arguments _ =>
    rw [call.sizeOf_spec]
    rcases List.mem_cons.mp member with rfl | member
    · omega
    · have inside := List.sizeOf_lt_of_mem member
      omega

/-- Induction on the operands of a node. -/
theorem parts_induction {motive : Expr → Prop}
    (node : ∀ e, (∀ part ∈ e.parts, motive part) → motive e) (e : Expr) : motive e :=
  node e fun part _ => parts_induction node part
termination_by sizeOf e
decreasing_by exact sizeOf_parts ‹_›

theorem map_id_nodes (e : Expr) : e.nodes.map Expr.id = e.ids := by
  induction e using parts_induction with
  | node e ih =>
    rw [nodes_eq, ids_eq, List.map_append, List.map_flatMap, List.flatMap_def, List.flatMap_def,
      List.map_congr_left ih]
    rfl

/-- Every node has a number larger than those of its operands, and earlier operands have smaller
numbers than later ones. -/
structure Ordered (e : Expr) : Prop where
  above : ∀ part ∈ e.parts, ∀ id ∈ part.ids, id < e.id
  across : e.parts.Pairwise fun earlier later => ∀ i ∈ earlier.ids, ∀ j ∈ later.ids, i < j

/-- In an expression whose numbers go up all nodes are ordered. -/
theorem ordered_of_rising {e : Expr} (rising : e.ids.Pairwise (· < ·)) :
    ∀ node ∈ e.nodes, node.Ordered := by
  induction e using parts_induction with
  | node e ih =>
    rw [ids_eq, List.pairwise_append] at rising
    obtain ⟨operands, _, above⟩ := rising
    rw [List.flatMap_def, List.pairwise_flatten, List.pairwise_map] at operands
    obtain ⟨inside, across⟩ := operands
    intro node member
    rw [nodes_eq, List.mem_append, List.mem_flatMap, List.mem_singleton] at member
    rcases member with ⟨part, isPart, member⟩ | rfl
    · exact ih part isPart (inside _ (List.mem_map_of_mem isPart)) node member
    · refine ⟨fun part isPart id number => ?_, across⟩
      exact above id (List.mem_flatMap.mpr ⟨part, isPart, number⟩) _ List.mem_cons_self

end Expr

/-! Statements. -/

/-- The name of a superclass as the expression that it is. -/
def Superclass.expr (s : Superclass) : Expr := .var s.id s.name

mutual

/-- The expressions that a statement is made of, in order. -/
def Stmt.exprs : Stmt → List Expr
  | .expression value | .print value => [value]
  | .var _ initial => initial.toList
  | .block body => Stmt.exprsEach body
  | .ifThen condition yes => condition :: yes.exprs
  | .ifElse condition yes no => condition :: (yes.exprs ++ no.exprs)
  | .whileLoop condition body => condition :: body.exprs
  | .function declaration => declaration.exprs
  | .returns _ value => value.toList
  | .classDecl _ superclass methods =>
    (superclass.map Superclass.expr).toList ++ FunctionDecl.exprsEach methods

def Stmt.exprsEach : List Stmt → List Expr
  | [] => []
  | s :: rest => s.exprs ++ Stmt.exprsEach rest

def FunctionDecl.exprs : FunctionDecl → List Expr
  | .mk _ _ body => Stmt.exprsEach body

def FunctionDecl.exprsEach : List FunctionDecl → List Expr
  | [] => []
  | f :: rest => f.exprs ++ FunctionDecl.exprsEach rest

end

theorem Stmt.exprsEach_eq_flatMap (body : List Stmt) :
    Stmt.exprsEach body = body.flatMap Stmt.exprs := by
  induction body with
  | nil => rfl
  | cons s rest ih => rw [Stmt.exprsEach, ih, List.flatMap_cons]

theorem FunctionDecl.exprsEach_eq_flatMap (fs : List FunctionDecl) :
    FunctionDecl.exprsEach fs = fs.flatMap FunctionDecl.exprs := by
  induction fs with
  | nil => rfl
  | cons f rest ih => rw [FunctionDecl.exprsEach, ih, List.flatMap_cons]

/-- All expression nodes of a program. -/
def programNodes (program : List Stmt) : List Expr := (Stmt.exprsEach program).flatMap Expr.nodes

mutual

theorem Stmt.ids_eq_exprs : ∀ s : Stmt, s.ids = s.exprs.flatMap Expr.ids
  | .expression value | .print value => by simp [Stmt.ids, Stmt.exprs]
  | .var _ initial => by cases initial <;> simp [Stmt.ids, Stmt.exprs, idsOptional]
  | .block body => Stmt.idsEach_eq_exprs body
  | .ifThen condition yes => by
    simp only [Stmt.ids, Stmt.exprs, List.flatMap_cons, yes.ids_eq_exprs]
  | .ifElse condition yes no => by
    simp only [Stmt.ids, Stmt.exprs, List.flatMap_cons, List.flatMap_append, yes.ids_eq_exprs,
      no.ids_eq_exprs]
  | .whileLoop condition body => by
    simp only [Stmt.ids, Stmt.exprs, List.flatMap_cons, body.ids_eq_exprs]
  | .function declaration => declaration.ids_eq_exprs
  | .returns _ value => by cases value <;> simp [Stmt.ids, Stmt.exprs, idsOptional]
  | .classDecl _ superclass methods => by
    cases superclass <;>
      simp [Stmt.ids, Stmt.exprs, FunctionDecl.idsEach_eq_exprs methods, Superclass.expr, Expr.ids]

theorem Stmt.idsEach_eq_exprs : ∀ body : List Stmt,
    Stmt.idsEach body = (Stmt.exprsEach body).flatMap Expr.ids
  | [] => rfl
  | s :: rest => by
    simp only [Stmt.idsEach, Stmt.exprsEach, List.flatMap_append, s.ids_eq_exprs,
      Stmt.idsEach_eq_exprs rest]

theorem FunctionDecl.ids_eq_exprs : ∀ f : FunctionDecl, f.ids = f.exprs.flatMap Expr.ids
  | .mk _ _ body => Stmt.idsEach_eq_exprs body

theorem FunctionDecl.idsEach_eq_exprs : ∀ fs : List FunctionDecl,
    FunctionDecl.idsEach fs = (FunctionDecl.exprsEach fs).flatMap Expr.ids
  | [] => rfl
  | f :: rest => by
    simp only [FunctionDecl.idsEach, FunctionDecl.exprsEach, List.flatMap_append, f.ids_eq_exprs,
      FunctionDecl.idsEach_eq_exprs rest]

end

theorem map_id_programNodes (program : List Stmt) :
    (programNodes program).map Expr.id = Stmt.idsEach program := by
  rw [programNodes, List.map_flatMap, Stmt.idsEach_eq_exprs]
  simp only [Expr.map_id_nodes]

end ScopeScript
