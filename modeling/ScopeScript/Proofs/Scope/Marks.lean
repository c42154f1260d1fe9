import ScopeScript.Scope.Findings

/-! Scoping told by the order of a text. A program is read as a row of marks: scopes open and close,
declarations begin and are complete, names are used. Where a name is declared, and how many scopes
lie between its declaration and a use of it, can be told from what stands before the use. -/
namespace ScopeScript

/-- The scopes of a text: blocks, the parameters and body of a function, and the methods of a
class, which see `this`. -/
inductive ScopeKind where
  | block | function | methods
  deriving DecidableEq

inductive DeclarationKind where
  | ofVariable | ofParameter | ofFunction | ofClass
  deriving DecidableEq

inductive Mark where
  | opens (kind : ScopeKind)
  | closes
  /-- A declaration begins. -/
  | declares (kind : DeclarationKind) (name : Lexeme)
  /-- From here on a declared name counts. -/
  | completes (name : String)
  | uses (id : ExprId) (name : Lexeme)
  | this (id : ExprId) (keyword : Lexeme)
  | returns (keyword : Lexeme)
  | inherits (name parent : Lexeme)
  deriving DecidableEq

namespace Mark

/-- A declaration that is complete at once. -/
def declared (kind : DeclarationKind) (name : Lexeme) : List Mark :=
  [declares kind name, completes name.text]

/-- The number of a node that uses a name, and the name. -/
def use? : Mark → Option (ExprId × String)
  | uses id name => some (id, name.text)
  | this id _ => some (id, thisName)
  | _ => none

end Mark

namespace Expr

mutual

/-- The marks of an expression in the order of the walk. -/
def marks : Expr → List Mark
  | literal _ _ => []
  | group _ inner => inner.marks
  | var id name => [.uses id name]
  | this id keyword => [.this id keyword]
  | assign id name value => value.marks ++ [.uses id name]
  | unary _ _ _ operand => operand.marks
  | binary _ _ _ left right | logical _ _ _ left right => left.marks ++ right.marks
  | call _ callee arguments _ => callee.marks ++ marksEach arguments
  | get _ object _ => object.marks
  | set _ object _ value => object.marks ++ value.marks

def marksEach : List Expr → List Mark
  | [] => []
  | e :: rest => e.marks ++ marksEach rest

end

end Expr

def marksOptional : Option Expr → List Mark
  | none => []
  | some e => e.marks

/-- The marks of what a class named `name` inherits from. -/
def Superclass.marks (name : Lexeme) : Option Superclass → List Mark
  | none => []
  | some s => [.inherits name s.name, .uses s.id s.name]

mutual

/-- The marks of a statement. A variable is complete behind its initial value, a function or class
in front of its body. -/
def Stmt.marks : Stmt → List Mark
  | .expression value | .print value => value.marks
  | .var name initial =>
    .declares .ofVariable name :: (marksOptional initial ++ [.completes name.text])
  | .block body => .opens .block :: (Stmt.marksEach body ++ [.closes])
  | .ifThen condition yes => condition.marks ++ yes.marks
  | .ifElse condition yes no => condition.marks ++ (yes.marks ++ no.marks)
  | .whileLoop condition body => condition.marks ++ body.marks
  | .function declaration => Mark.declared .ofFunction declaration.name ++ declaration.marks
  | .returns keyword value => .returns keyword :: marksOptional value
  | .classDecl name superclass methods =>
    Mark.declared .ofClass name ++ (Superclass.marks name superclass ++
      (.opens .methods :: .completes thisName :: (FunctionDecl.marksEach methods ++ [.closes])))

def Stmt.marksEach : List Stmt → List Mark
  | [] => []
  | s :: rest => s.marks ++ Stmt.marksEach rest

def FunctionDecl.marks : FunctionDecl → List Mark
  | .mk _ params body => .opens .function ::
    (params.flatMap (Mark.declared .ofParameter) ++ (Stmt.marksEach body ++ [.closes]))

def FunctionDecl.marksEach : List FunctionDecl → List Mark
  | [] => []
  | f :: rest => f.marks ++ FunctionDecl.marksEach rest

end

/-! How deep a text is. -/

/-- How many scopes are open behind a mark, if `n` are before it. -/
def Mark.depth : Mark → (n : Nat) → Option Nat
  | opens _, n => some (n + 1)
  | closes, 0 => none
  | closes, n + 1 => some n
  | _, n => some n

/-- How many scopes a piece of text leaves open, and none if it closes one that it did not open. -/
def leftOpen (text : List Mark) : Option Nat := text.foldlM (fun n mark => mark.depth n) 0

@[simp] theorem leftOpen_nil : leftOpen [] = some 0 := rfl

theorem leftOpen_concat (text : List Mark) (mark : Mark) :
    leftOpen (text ++ [mark]) = (leftOpen text).bind mark.depth := by
  simp only [leftOpen, List.foldlM_append, List.foldlM_cons, List.foldlM_nil, bind_pure]
  rfl

/-! What has been declared and which scopes are open at a place of a text, told by all that stands
before it. -/

/-- A declaration of `x` is complete in the local scope that lies `d` scopes further out. -/
def DeclaredLocally (before : List Mark) (x : String) (d : Nat) : Prop :=
  ∃ front back n, before = front ++ .completes x :: back ∧ leftOpen front = some (n + 1) ∧
    leftOpen back = some d

/-- The innermost local scope with a complete declaration of `x` lies `d` scopes further out. -/
def NearestDeclaration (before : List Mark) (x : String) (d : Nat) : Prop :=
  DeclaredLocally before x d ∧ ∀ n < d, ¬DeclaredLocally before x n

/-- A declaration of `x` is complete at the top level. -/
def DeclaredGlobally (before : List Mark) (x : String) : Prop :=
  ∃ front back, before = front ++ .completes x :: back ∧ leftOpen front = some 0

/-- The scope that lies `d` scopes further out is of this kind. -/
def InsideScope (before : List Mark) (kind : ScopeKind) (d : Nat) : Prop :=
  ∃ front back, before = front ++ .opens kind :: back ∧ leftOpen back = some d

/-- Only uses of names stand behind the beginning of the declaration of a variable `x`. -/
def InInitialValue (before : List Mark) (x : String) : Prop :=
  ∃ front name back, before = front ++ .declares .ofVariable name :: back ∧ name.text = x ∧
    ∀ mark ∈ back, mark.use?.isSome = true

/-! All of these in a text with one mark more. -/

theorem concat_eq_append_cons {α : Type} {text front back : List α} {last mark : α} :
    text ++ [last] = front ++ mark :: back ↔
      (front = text ∧ mark = last ∧ back = []) ∨
        ∃ rest, back = rest ++ [last] ∧ text = front ++ mark :: rest := by
  constructor
  · intro split
    rcases List.eq_nil_or_concat back with rfl | ⟨rest, other, rfl⟩
    · obtain ⟨rfl, same⟩ := List.append_inj' split rfl
      exact .inl ⟨rfl, (List.singleton_inj.mp same).symm, rfl⟩
    · rw [List.concat_eq_append] at split ⊢
      rw [← List.cons_append, ← List.append_assoc] at split
      obtain ⟨rfl, same⟩ := List.append_inj' split rfl
      cases List.singleton_inj.mp same
      exact .inr ⟨rest, rfl, rfl⟩
  · rintro (⟨rfl, rfl, rfl⟩ | ⟨rest, rfl, rfl⟩)
    · rfl
    · simp

section Concat
variable {before : List Mark} {mark : Mark} {x : String} {d : Nat} {kind : ScopeKind}

theorem declaredLocally_concat : DeclaredLocally (before ++ [mark]) x d ↔
    (mark = .completes x ∧ d = 0 ∧ ∃ n, leftOpen before = some (n + 1)) ∨
      ∃ e, DeclaredLocally before x e ∧ mark.depth e = some d := by
  constructor
  · rintro ⟨front, back, n, split, opened, since⟩
    rcases concat_eq_append_cons.mp split with ⟨rfl, here, rfl⟩ | ⟨rest, rfl, inside⟩
    · cases since
      exact .inl ⟨here.symm, rfl, n, opened⟩
    · rw [leftOpen_concat, Option.bind_eq_some_iff] at since
      obtain ⟨e, since, moved⟩ := since
      exact .inr ⟨e, ⟨front, rest, n, inside, opened, since⟩, moved⟩
  · rintro (⟨rfl, rfl, n, opened⟩ | ⟨e, ⟨front, back, n, rfl, opened, since⟩, moved⟩)
    · exact ⟨before, [], n, rfl, opened, rfl⟩
    · refine ⟨front, back ++ [mark], n, by simp, opened, ?_⟩
      rw [leftOpen_concat, since]
      exact moved

theorem declaredGlobally_concat : DeclaredGlobally (before ++ [mark]) x ↔
    (mark = .completes x ∧ leftOpen before = some 0) ∨ DeclaredGlobally before x := by
  constructor
  · rintro ⟨front, back, split, opened⟩
    rcases concat_eq_append_cons.mp split with ⟨rfl, here, rfl⟩ | ⟨rest, rfl, inside⟩
    · exact .inl ⟨here.symm, opened⟩
    · exact .inr ⟨front, rest, inside, opened⟩
  · rintro (⟨rfl, opened⟩ | ⟨front, back, rfl, opened⟩)
    · exact ⟨before, [], rfl, opened⟩
    · exact ⟨front, back ++ [mark], by simp, opened⟩

theorem insideScope_concat : InsideScope (before ++ [mark]) kind d ↔
    (mark = .opens kind ∧ d = 0) ∨ ∃ e, InsideScope before kind e ∧ mark.depth e = some d := by
  constructor
  · rintro ⟨front, back, split, since⟩
    rcases concat_eq_append_cons.mp split with ⟨rfl, here, rfl⟩ | ⟨rest, rfl, inside⟩
    · cases since
      exact .inl ⟨here.symm, rfl⟩
    · rw [leftOpen_concat, Option.bind_eq_some_iff] at since
      obtain ⟨e, since, moved⟩ := since
      exact .inr ⟨e, ⟨front, rest, inside, since⟩, moved⟩
  · rintro (⟨rfl, rfl⟩ | ⟨e, ⟨front, back, rfl, since⟩, moved⟩)
    · exact ⟨before, [], rfl, rfl⟩
    · refine ⟨front, back ++ [mark], by simp, ?_⟩
      rw [leftOpen_concat, since]
      exact moved

theorem inInitialValue_concat : InInitialValue (before ++ [mark]) x ↔
    (∃ name : Lexeme, mark = .declares .ofVariable name ∧ name.text = x) ∨
      mark.use?.isSome = true ∧ InInitialValue before x := by
  constructor
  · rintro ⟨front, name, back, split, same, uses⟩
    rcases concat_eq_append_cons.mp split with ⟨rfl, here, rfl⟩ | ⟨rest, rfl, inside⟩
    · exact .inl ⟨name, here.symm, same⟩
    · refine .inr ⟨uses mark (by simp), front, name, rest, inside, same, fun m member => ?_⟩
      exact uses m (List.mem_append_left _ member)
  · rintro (⟨name, rfl, same⟩ | ⟨use, front, name, back, rfl, same, uses⟩)
    · exact ⟨before, name, [], rfl, same, by simp⟩
    · refine ⟨front, name, back ++ [mark], by simp, same, fun m member => ?_⟩
      rcases List.mem_append.mp member with old | new
      · exact uses m old
      · rwa [List.mem_singleton.mp new]

end Concat

end ScopeScript
