import ScopeScript.Tree.Stmt

/-! The numbers of all expression nodes of a tree, operands before the node they belong to,
and where declarations stand: branches and the bodies of loops are never declarations, so
whatever is declared stands in a block, in the body of a function or at the top level. -/
namespace ScopeScript

namespace Expr

mutual

def ids : Expr → List ExprId
  | literal id _ | var id _ | this id _ => [id]
  | group id inner => inner.ids ++ [id]
  | assign id _ value => value.ids ++ [id]
  | unary id _ _ operand => operand.ids ++ [id]
  | binary id _ _ left right | logical id _ _ left right => left.ids ++ (right.ids ++ [id])
  | call id callee arguments _ => callee.ids ++ (idsEach arguments ++ [id])
  | get id object _ => object.ids ++ [id]
  | set id object _ value => object.ids ++ (value.ids ++ [id])

def idsEach : List Expr → List ExprId
  | [] => []
  | e :: rest => e.ids ++ idsEach rest

end

end Expr

theorem Expr.idsEach_eq_flatMap (es : List Expr) : Expr.idsEach es = es.flatMap Expr.ids := by
  induction es with
  | nil => rfl
  | cons e rest ih => rw [Expr.idsEach, ih, List.flatMap_cons]

/-- The numbers of an optional part. -/
def idsOptional : Option Expr → List ExprId
  | none => []
  | some e => e.ids

mutual

def Stmt.ids : Stmt → List ExprId
  | .expression value | .print value => value.ids
  | .var _ initial => idsOptional initial
  | .block body => Stmt.idsEach body
  | .ifThen condition yes => condition.ids ++ yes.ids
  | .ifElse condition yes no => condition.ids ++ (yes.ids ++ no.ids)
  | .whileLoop condition body => condition.ids ++ body.ids
  | .function declaration => declaration.ids
  | .returns _ value => idsOptional value
  | .classDecl _ superclass methods =>
    (superclass.map (·.id)).toList ++ FunctionDecl.idsEach methods

def Stmt.idsEach : List Stmt → List ExprId
  | [] => []
  | s :: rest => s.ids ++ Stmt.idsEach rest

def FunctionDecl.ids : FunctionDecl → List ExprId
  | .mk _ _ body => Stmt.idsEach body

def FunctionDecl.idsEach : List FunctionDecl → List ExprId
  | [] => []
  | f :: rest => f.ids ++ FunctionDecl.idsEach rest

end

theorem Stmt.idsEach_eq_flatMap (body : List Stmt) : Stmt.idsEach body = body.flatMap Stmt.ids := by
  induction body with
  | nil => rfl
  | cons s rest ih => rw [Stmt.idsEach, ih, List.flatMap_cons]

theorem FunctionDecl.idsEach_eq_flatMap (fs : List FunctionDecl) :
    FunctionDecl.idsEach fs = fs.flatMap FunctionDecl.ids := by
  induction fs with
  | nil => rfl
  | cons f rest ih => rw [FunctionDecl.idsEach, ih, List.flatMap_cons]

def Stmt.isDeclaration : Stmt → Bool
  | .var _ _ | .function _ | .classDecl _ _ _ => true
  | _ => false

mutual

/-- No declaration stands where only a statement may. -/
def Stmt.Ranked : Stmt → Prop
  | .expression _ | .print _ | .var _ _ | .returns _ _ => True
  | .block body => Stmt.RankedEach body
  | .ifThen _ yes => yes.isDeclaration = false ∧ yes.Ranked
  | .ifElse _ yes no =>
    (yes.isDeclaration = false ∧ yes.Ranked) ∧ no.isDeclaration = false ∧ no.Ranked
  | .whileLoop _ body => body.isDeclaration = false ∧ body.Ranked
  | .function declaration => declaration.Ranked
  | .classDecl _ _ methods => FunctionDecl.RankedEach methods

def Stmt.RankedEach : List Stmt → Prop
  | [] => True
  | s :: rest => s.Ranked ∧ Stmt.RankedEach rest

def FunctionDecl.Ranked : FunctionDecl → Prop
  | .mk _ _ body => Stmt.RankedEach body

def FunctionDecl.RankedEach : List FunctionDecl → Prop
  | [] => True
  | f :: rest => f.Ranked ∧ FunctionDecl.RankedEach rest

end

theorem Stmt.rankedEach_iff (body : List Stmt) : Stmt.RankedEach body ↔ ∀ s ∈ body, s.Ranked := by
  induction body with
  | nil => simp [Stmt.RankedEach]
  | cons s rest ih => simp [Stmt.RankedEach, ih]

theorem FunctionDecl.rankedEach_iff (fs : List FunctionDecl) :
    FunctionDecl.RankedEach fs ↔ ∀ f ∈ fs, f.Ranked := by
  induction fs with
  | nil => simp [FunctionDecl.RankedEach]
  | cons f rest ih => simp [FunctionDecl.RankedEach, ih]

end ScopeScript
