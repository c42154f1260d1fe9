import ScopeScript.Tree.Stmt

/-! Trees with other numbers and lines. Numbers and lines are labels: a change of all of them
leaves the text of a program as it was. -/
namespace ScopeScript

/-- A change of the numbers of expression nodes and of the lines of lexemes. -/
structure Relabel where
  id : ExprId → ExprId
  line : Nat → Nat

/-- One change after another. -/
def Relabel.comp (r q : Relabel) : Relabel := ⟨r.id ∘ q.id, r.line ∘ q.line⟩

/-- No change. -/
def Relabel.refl : Relabel := ⟨fun x => x, fun x => x⟩

/-- A change of lines only. -/
def Relabel.lines (line : Nat → Nat) : Relabel := ⟨fun id => id, line⟩

/-- Forgets the numbers of nodes. -/
def Relabel.unnumbered : Relabel := ⟨fun _ => 0, fun line => line⟩

def Lexeme.relabel (r : Relabel) (l : Lexeme) : Lexeme := { l with line := r.line l.line }

@[simp] theorem Lexeme.relabel_text (r : Relabel) (l : Lexeme) : (l.relabel r).text = l.text := rfl

theorem Lexeme.relabel_relabel (r q : Relabel) (l : Lexeme) :
    (l.relabel q).relabel r = l.relabel (r.comp q) := rfl

def Token.relabel (r : Relabel) (t : Token) : Token := { t with line := r.line t.line }

@[simp] theorem Token.relabel_kind (r : Relabel) (t : Token) : (t.relabel r).kind = t.kind := rfl

@[simp] theorem Token.relabel_toLexeme (r : Relabel) (t : Token) :
    (t.relabel r).toLexeme = t.toLexeme.relabel r := rfl

namespace Expr

mutual

def relabel (r : Relabel) : Expr → Expr
  | literal id value => literal (r.id id) value
  | group id inner => group (r.id id) (inner.relabel r)
  | var id name => var (r.id id) (name.relabel r)
  | this id keyword => this (r.id id) (keyword.relabel r)
  | assign id name value => assign (r.id id) (name.relabel r) (value.relabel r)
  | unary id op sign operand => unary (r.id id) op (sign.relabel r) (operand.relabel r)
  | binary id op sign left right =>
    binary (r.id id) op (sign.relabel r) (left.relabel r) (right.relabel r)
  | logical id op sign left right =>
    logical (r.id id) op (sign.relabel r) (left.relabel r) (right.relabel r)
  | call id callee arguments closing =>
    call (r.id id) (callee.relabel r) (relabelEach r arguments) (closing.relabel r)
  | get id object property => get (r.id id) (object.relabel r) (property.relabel r)
  | set id object property value =>
    set (r.id id) (object.relabel r) (property.relabel r) (value.relabel r)

def relabelEach (r : Relabel) : List Expr → List Expr
  | [] => []
  | e :: rest => e.relabel r :: relabelEach r rest

end

theorem relabelEach_eq_map (r : Relabel) (es : List Expr) :
    relabelEach r es = es.map (relabel r) := by
  induction es with
  | nil => rfl
  | cons e rest ih => rw [relabelEach, ih, List.map_cons]

mutual

theorem relabel_relabel (r q : Relabel) : ∀ e : Expr, (e.relabel q).relabel r = e.relabel (r.comp q)
  | literal _ _ | var _ _ | this _ _ => rfl
  | group _ inner => by
    simp only [relabel, inner.relabel_relabel r q]
    rfl
  | assign _ _ value => by
    simp only [relabel, value.relabel_relabel r q]
    rfl
  | unary _ _ _ operand => by
    simp only [relabel, operand.relabel_relabel r q]
    rfl
  | binary _ _ _ left right | logical _ _ _ left right => by
    simp only [relabel, left.relabel_relabel r q, right.relabel_relabel r q]
    rfl
  | call _ callee arguments _ => by
    simp only [relabel, callee.relabel_relabel r q, relabelEach_relabelEach r q arguments]
    rfl
  | get _ object _ => by
    simp only [relabel, object.relabel_relabel r q]
    rfl
  | set _ object _ value => by
    simp only [relabel, object.relabel_relabel r q, value.relabel_relabel r q]
    rfl

theorem relabelEach_relabelEach (r q : Relabel) :
    ∀ es : List Expr, relabelEach r (relabelEach q es) = relabelEach (r.comp q) es
  | [] => rfl
  | e :: rest => by
    simp only [relabelEach, e.relabel_relabel r q, relabelEach_relabelEach r q rest]

end

end Expr

def Superclass.relabel (r : Relabel) (s : Superclass) : Superclass :=
  ⟨r.id s.id, s.name.relabel r⟩

mutual

def Stmt.relabel (r : Relabel) : Stmt → Stmt
  | .expression value => .expression (value.relabel r)
  | .print value => .print (value.relabel r)
  | .var name initial => .var (name.relabel r) (initial.map (Expr.relabel r))
  | .block body => .block (Stmt.relabelEach r body)
  | .ifThen condition yes => .ifThen (condition.relabel r) (yes.relabel r)
  | .ifElse condition yes no => .ifElse (condition.relabel r) (yes.relabel r) (no.relabel r)
  | .whileLoop condition body => .whileLoop (condition.relabel r) (body.relabel r)
  | .function declaration => .function (declaration.relabel r)
  | .returns keyword value => .returns (keyword.relabel r) (value.map (Expr.relabel r))
  | .classDecl name superclass methods =>
    .classDecl (name.relabel r) (superclass.map (Superclass.relabel r))
      (FunctionDecl.relabelEach r methods)

def Stmt.relabelEach (r : Relabel) : List Stmt → List Stmt
  | [] => []
  | s :: rest => s.relabel r :: Stmt.relabelEach r rest

def FunctionDecl.relabel (r : Relabel) : FunctionDecl → FunctionDecl
  | .mk name params body =>
    .mk (name.relabel r) (params.map (Lexeme.relabel r)) (Stmt.relabelEach r body)

def FunctionDecl.relabelEach (r : Relabel) : List FunctionDecl → List FunctionDecl
  | [] => []
  | f :: rest => f.relabel r :: FunctionDecl.relabelEach r rest

end

theorem Stmt.relabelEach_eq_map (r : Relabel) (body : List Stmt) :
    Stmt.relabelEach r body = body.map (Stmt.relabel r) := by
  induction body with
  | nil => rfl
  | cons s rest ih => rw [Stmt.relabelEach, ih, List.map_cons]

theorem FunctionDecl.relabelEach_eq_map (r : Relabel) (fs : List FunctionDecl) :
    FunctionDecl.relabelEach r fs = fs.map (FunctionDecl.relabel r) := by
  induction fs with
  | nil => rfl
  | cons f rest ih => rw [FunctionDecl.relabelEach, ih, List.map_cons]

namespace FunctionDecl
variable (r : Relabel) (f : FunctionDecl)

@[simp] theorem relabel_name : (f.relabel r).name = f.name.relabel r := by
  cases f
  rfl

@[simp] theorem relabel_params : (f.relabel r).params = f.params.map (Lexeme.relabel r) := by
  cases f
  rfl

end FunctionDecl

theorem Expr.map_relabel_relabel (r q : Relabel) (e : Option Expr) :
    (e.map (Expr.relabel q)).map (Expr.relabel r) = e.map (Expr.relabel (r.comp q)) := by
  cases e with
  | none => rfl
  | some e => exact congrArg some (e.relabel_relabel r q)

mutual

theorem Stmt.relabel_relabel (r q : Relabel) :
    ∀ s : Stmt, (s.relabel q).relabel r = s.relabel (r.comp q)
  | .expression value => congrArg Stmt.expression (value.relabel_relabel r q)
  | .print value => congrArg Stmt.print (value.relabel_relabel r q)
  | .var _ initial => congrArg (Stmt.var _) (Expr.map_relabel_relabel r q initial)
  | .block body => congrArg Stmt.block (Stmt.relabelEach_relabelEach r q body)
  | .ifThen condition body | .whileLoop condition body => by
    simp only [Stmt.relabel, condition.relabel_relabel r q, body.relabel_relabel r q]
  | .ifElse condition yes no => by
    simp only [Stmt.relabel, condition.relabel_relabel r q, yes.relabel_relabel r q,
      no.relabel_relabel r q]
  | .function declaration => congrArg Stmt.function (declaration.relabel_relabel r q)
  | .returns _ value => congrArg (Stmt.returns _) (Expr.map_relabel_relabel r q value)
  | .classDecl _ superclass methods => by
    simp only [Stmt.relabel, FunctionDecl.relabelEach_relabelEach r q methods, Option.map_map]
    rfl

theorem Stmt.relabelEach_relabelEach (r q : Relabel) :
    ∀ body : List Stmt,
      Stmt.relabelEach r (Stmt.relabelEach q body) = Stmt.relabelEach (r.comp q) body
  | [] => rfl
  | s :: rest => by
    simp only [Stmt.relabelEach, s.relabel_relabel r q, Stmt.relabelEach_relabelEach r q rest]

theorem FunctionDecl.relabel_relabel (r q : Relabel) :
    ∀ f : FunctionDecl, (f.relabel q).relabel r = f.relabel (r.comp q)
  | .mk name params body => by
    simp only [FunctionDecl.relabel, Stmt.relabelEach_relabelEach r q body, List.map_map]
    rfl

theorem FunctionDecl.relabelEach_relabelEach (r q : Relabel) :
    ∀ fs : List FunctionDecl,
      FunctionDecl.relabelEach r (FunctionDecl.relabelEach q fs) =
        FunctionDecl.relabelEach (r.comp q) fs
  | [] => rfl
  | f :: rest => by
    simp only [FunctionDecl.relabelEach, f.relabel_relabel r q,
      FunctionDecl.relabelEach_relabelEach r q rest]

end

mutual

theorem Expr.relabel_refl : ∀ e : Expr, e.relabel .refl = e
  | .literal _ _ | .var _ _ | .this _ _ => rfl
  | .group _ inner => congrArg (Expr.group _) inner.relabel_refl
  | .assign _ _ value => congrArg (Expr.assign _ _) value.relabel_refl
  | .unary _ _ _ operand => congrArg (Expr.unary _ _ _) operand.relabel_refl
  | .binary _ _ _ left right | .logical _ _ _ left right | .set _ left _ right => by
    simp only [Expr.relabel, left.relabel_refl, right.relabel_refl]
    rfl
  | .call _ callee arguments _ => by
    simp only [Expr.relabel, callee.relabel_refl, Expr.relabelEach_refl arguments]
    rfl
  | .get _ object _ => by
    simp only [Expr.relabel, object.relabel_refl]
    rfl

theorem Expr.relabelEach_refl : ∀ es : List Expr, Expr.relabelEach .refl es = es
  | [] => rfl
  | e :: rest => by simp only [Expr.relabelEach, e.relabel_refl, Expr.relabelEach_refl rest]

end

theorem Expr.map_relabel_refl (e : Option Expr) : e.map (Expr.relabel .refl) = e := by
  cases e with
  | none => rfl
  | some e => exact congrArg some e.relabel_refl

mutual

theorem Stmt.relabel_refl : ∀ s : Stmt, s.relabel .refl = s
  | .expression value => congrArg Stmt.expression value.relabel_refl
  | .print value => congrArg Stmt.print value.relabel_refl
  | .var _ initial => congrArg (Stmt.var _) (Expr.map_relabel_refl initial)
  | .block body => congrArg Stmt.block (Stmt.relabelEach_refl body)
  | .ifThen condition body | .whileLoop condition body => by
    simp only [Stmt.relabel, condition.relabel_refl, body.relabel_refl]
  | .ifElse condition yes no => by
    simp only [Stmt.relabel, condition.relabel_refl, yes.relabel_refl, no.relabel_refl]
  | .function declaration => congrArg Stmt.function declaration.relabel_refl
  | .returns _ value => congrArg (Stmt.returns _) (Expr.map_relabel_refl value)
  | .classDecl _ superclass methods => by
    simp only [Stmt.relabel, FunctionDecl.relabelEach_refl methods]
    cases superclass <;> rfl

theorem Stmt.relabelEach_refl : ∀ body : List Stmt, Stmt.relabelEach .refl body = body
  | [] => rfl
  | s :: rest => by simp only [Stmt.relabelEach, s.relabel_refl, Stmt.relabelEach_refl rest]

theorem FunctionDecl.relabel_refl : ∀ f : FunctionDecl, f.relabel .refl = f
  | .mk name params body => by
    simp only [FunctionDecl.relabel, Stmt.relabelEach_refl body, FunctionDecl.mk.injEq, and_true]
    exact ⟨rfl, List.map_id' params⟩

theorem FunctionDecl.relabelEach_refl :
    ∀ fs : List FunctionDecl, FunctionDecl.relabelEach .refl fs = fs
  | [] => rfl
  | f :: rest => by
    simp only [FunctionDecl.relabelEach, f.relabel_refl, FunctionDecl.relabelEach_refl rest]

end

end ScopeScript
