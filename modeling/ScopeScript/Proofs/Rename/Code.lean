import ScopeScript.Scope.Findings

/-! Code in which some local variables are called by another name. At every place the old name
either means one of these variables or it does not, and that is all one has to know to tell what a
name has become there. -/
namespace ScopeScript

/-- Some variables get a new name instead of their old one. -/
structure NameChange where
  old : String
  new : String
  old_ne_this : old ≠ thisName
  new_ne_this : new ≠ thisName

/-- Where code stands: at the top level, or in a local scope, in which the old name means a renamed
variable if `moved` holds. -/
inductive Sight where
  | top
  | inside (moved : Bool)

namespace Sight

def moved : Sight → Bool
  | top => false
  | inside moved => moved

/-- Behind a declaration of `name` that is not renamed. The old name then means what is declared. -/
def shadow (r : NameChange) (name : String) : Sight → Sight
  | top => top
  | inside moved => inside (moved && name != r.old)

@[simp] theorem moved_shadow (r : NameChange) (name : String) (sight : Sight) :
    (sight.shadow r name).moved = (sight.moved && name != r.old) := by
  cases sight <;> rfl

end Sight

namespace NameChange

/-- A use of a name. The new name is not used before the change. -/
structure Uses (r : NameChange) (moved : Bool) (name name' : Lexeme) : Prop where
  unused : name.text ≠ r.new
  changed : name' = if moved = true ∧ name.text = r.old then { name with text := r.new } else name

theorem Uses.line_eq {r : NameChange} {moved : Bool} {name name' : Lexeme}
    (use : r.Uses moved name name') : name'.line = name.line := by
  rw [use.changed]
  split <;> rfl

/-- `this` means the object of a method and never a renamed variable. -/
theorem uses_this (r : NameChange) (moved : Bool) {keyword : Lexeme}
    (spelled : keyword.text = thisName) : r.Uses moved keyword keyword := by
  constructor
  · rw [spelled]
    exact r.new_ne_this.symm
  · rw [if_neg]
    rw [spelled]
    exact fun own => r.old_ne_this own.2.symm

/-- A declaration of a name, and where the code behind it stands. Only local variables are
renamed. -/
inductive Declares (r : NameChange) : Sight → (name name' : Lexeme) → (behind : Sight) → Prop where
  | kept {sight : Sight} {name : Lexeme} (unused : name.text ≠ r.new) :
    Declares r sight name name (sight.shadow r name.text)
  | changed {moved : Bool} {name : Lexeme} (own : name.text = r.old) :
    Declares r (.inside moved) name { name with text := r.new } (.inside true)

/-- Around methods `this` is declared, and the old name means what it means outside. -/
theorem declares_this (r : NameChange) (moved : Bool) :
    r.Declares (.inside moved) ⟨thisName, 0⟩ ⟨thisName, 0⟩ (.inside moved) := by
  have still : (Sight.inside moved).shadow r thisName = .inside moved := by
    simp [Sight.shadow, r.old_ne_this.symm]
  have kept : r.Declares (.inside moved) ⟨thisName, 0⟩ ⟨thisName, 0⟩
      ((Sight.inside moved).shadow r thisName) := .kept r.new_ne_this.symm
  rwa [still] at kept

/-- Parameters are declared one after the other. -/
inductive DeclaresEach (r : NameChange) :
    Sight → (params params' : List Lexeme) → (behind : Sight) → Prop where
  | nil {sight : Sight} : DeclaresEach r sight [] [] sight
  | cons {sight next behind : Sight} {p p' : Lexeme} {rest rest' : List Lexeme}
    (first : r.Declares sight p p' next) (others : DeclaresEach r next rest rest' behind) :
    DeclaresEach r sight (p :: rest) (p' :: rest') behind

/-- What a declared name was before the change. -/
def back (r : NameChange) (name : String) : String := if name = r.new then r.old else name

theorem Declares.back_eq {r : NameChange} {sight behind : Sight} {name name' : Lexeme}
    (declares : r.Declares sight name name' behind) : r.back name'.text = name.text := by
  cases declares with
  | kept unused => exact if_neg unused
  | changed own => exact (if_pos rfl).trans own.symm

end NameChange

mutual

/-- An expression with the names that its uses have become. -/
inductive Expr.Renamed (r : NameChange) (moved : Bool) : Expr → Expr → Prop where
  | literal {id : ExprId} {value : Literal} :
    Expr.Renamed r moved (.literal id value) (.literal id value)
  | group {id : ExprId} {inner inner' : Expr} (same : Expr.Renamed r moved inner inner') :
    Expr.Renamed r moved (.group id inner) (.group id inner')
  | var {id : ExprId} {name name' : Lexeme} (use : r.Uses moved name name') :
    Expr.Renamed r moved (.var id name) (.var id name')
  | this {id : ExprId} {keyword : Lexeme} (spelled : keyword.text = thisName) :
    Expr.Renamed r moved (.this id keyword) (.this id keyword)
  | assign {id : ExprId} {name name' : Lexeme} {value value' : Expr}
    (same : Expr.Renamed r moved value value') (use : r.Uses moved name name') :
    Expr.Renamed r moved (.assign id name value) (.assign id name' value')
  | unary {id : ExprId} {op : UnaryOp} {sign : Lexeme} {operand operand' : Expr}
    (same : Expr.Renamed r moved operand operand') :
    Expr.Renamed r moved (.unary id op sign operand) (.unary id op sign operand')
  | binary {id : ExprId} {op : BinaryOp} {sign : Lexeme} {left left' right right' : Expr}
    (first : Expr.Renamed r moved left left') (second : Expr.Renamed r moved right right') :
    Expr.Renamed r moved (.binary id op sign left right) (.binary id op sign left' right')
  | logical {id : ExprId} {op : LogicalOp} {sign : Lexeme} {left left' right right' : Expr}
    (first : Expr.Renamed r moved left left') (second : Expr.Renamed r moved right right') :
    Expr.Renamed r moved (.logical id op sign left right) (.logical id op sign left' right')
  | call {id : ExprId} {callee callee' : Expr} {arguments arguments' : List Expr} {closing : Lexeme}
    (first : Expr.Renamed r moved callee callee')
    (others : Expr.RenamedEach r moved arguments arguments') :
    Expr.Renamed r moved (.call id callee arguments closing) (.call id callee' arguments' closing)
  | get {id : ExprId} {object object' : Expr} {property : Lexeme}
    (same : Expr.Renamed r moved object object') :
    Expr.Renamed r moved (.get id object property) (.get id object' property)
  | set {id : ExprId} {object object' value value' : Expr} {property : Lexeme}
    (first : Expr.Renamed r moved object object') (second : Expr.Renamed r moved value value') :
    Expr.Renamed r moved (.set id object property value) (.set id object' property value')

inductive Expr.RenamedEach (r : NameChange) (moved : Bool) : List Expr → List Expr → Prop where
  | nil : Expr.RenamedEach r moved [] []
  | cons {e e' : Expr} {rest rest' : List Expr} (first : Expr.Renamed r moved e e')
    (others : Expr.RenamedEach r moved rest rest') :
    Expr.RenamedEach r moved (e :: rest) (e' :: rest')

end

structure Superclass.Renamed (r : NameChange) (moved : Bool) (s s' : Superclass) : Prop where
  id : s'.id = s.id
  use : r.Uses moved s.name s'.name

mutual

/-- A statement with the names that its uses and the renamed variables in it have become, and where
the code behind it stands. -/
inductive Stmt.Renamed (r : NameChange) : Sight → Stmt → Stmt → (behind : Sight) → Prop where
  | expression {sight : Sight} {value value' : Expr} (same : value.Renamed r sight.moved value') :
    Stmt.Renamed r sight (.expression value) (.expression value') sight
  | print {sight : Sight} {value value' : Expr} (same : value.Renamed r sight.moved value') :
    Stmt.Renamed r sight (.print value) (.print value') sight
  | var {sight behind : Sight} {name name' : Lexeme} {initial initial' : Option Expr}
    (declares : r.Declares sight name name' behind)
    (same : Option.Rel (Expr.Renamed r sight.moved) initial initial') :
    Stmt.Renamed r sight (.var name initial) (.var name' initial') behind
  | block {sight last : Sight} {body body' : List Stmt}
    (inner : Stmt.RenamedEach r (.inside sight.moved) body body' last) :
    Stmt.Renamed r sight (.block body) (.block body') sight
  | ifThen {sight last : Sight} {condition condition' : Expr} {yes yes' : Stmt}
    (test : condition.Renamed r sight.moved condition')
    (branch : Stmt.Renamed r sight yes yes' last) :
    Stmt.Renamed r sight (.ifThen condition yes) (.ifThen condition' yes') sight
  | ifElse {sight last last' : Sight} {condition condition' : Expr} {yes yes' no no' : Stmt}
    (test : condition.Renamed r sight.moved condition')
    (branch : Stmt.Renamed r sight yes yes' last)
    (other : Stmt.Renamed r sight no no' last') :
    Stmt.Renamed r sight (.ifElse condition yes no) (.ifElse condition' yes' no') sight
  | whileLoop {sight last : Sight} {condition condition' : Expr} {body body' : Stmt}
    (test : condition.Renamed r sight.moved condition')
    (inner : Stmt.Renamed r sight body body' last) :
    Stmt.Renamed r sight (.whileLoop condition body) (.whileLoop condition' body') sight
  | function {sight : Sight} {f f' : FunctionDecl} (unused : f.name.text ≠ r.new)
    (inner : FunctionDecl.Renamed r (sight.shadow r f.name.text).moved f f') :
    Stmt.Renamed r sight (.function f) (.function f') (sight.shadow r f.name.text)
  | returns {sight : Sight} {keyword : Lexeme} {value value' : Option Expr}
    (same : Option.Rel (Expr.Renamed r sight.moved) value value') :
    Stmt.Renamed r sight (.returns keyword value) (.returns keyword value') sight
  | classDecl {sight : Sight} {name : Lexeme} {superclass superclass' : Option Superclass}
    {methods methods' : List FunctionDecl} (unused : name.text ≠ r.new)
    (parent : Option.Rel (Superclass.Renamed r (sight.shadow r name.text).moved) superclass
      superclass')
    (inner : FunctionDecl.RenamedEach r (sight.shadow r name.text).moved methods methods') :
    Stmt.Renamed r sight (.classDecl name superclass methods) (.classDecl name superclass' methods')
      (sight.shadow r name.text)

inductive Stmt.RenamedEach (r : NameChange) :
    Sight → List Stmt → List Stmt → (behind : Sight) → Prop where
  | nil {sight : Sight} : Stmt.RenamedEach r sight [] [] sight
  | cons {sight next behind : Sight} {s s' : Stmt} {rest rest' : List Stmt}
    (first : Stmt.Renamed r sight s s' next) (others : Stmt.RenamedEach r next rest rest' behind) :
    Stmt.RenamedEach r sight (s :: rest) (s' :: rest') behind

/-- A function keeps its name. -/
inductive FunctionDecl.Renamed (r : NameChange) : Bool → FunctionDecl → FunctionDecl → Prop where
  | mk {moved : Bool} {start last : Sight} {name : Lexeme} {params params' : List Lexeme}
    {body body' : List Stmt} (declares : r.DeclaresEach (.inside moved) params params' start)
    (inner : Stmt.RenamedEach r start body body' last) :
    FunctionDecl.Renamed r moved (.mk name params body) (.mk name params' body')

inductive FunctionDecl.RenamedEach (r : NameChange) :
    Bool → List FunctionDecl → List FunctionDecl → Prop where
  | nil {moved : Bool} : FunctionDecl.RenamedEach r moved [] []
  | cons {moved : Bool} {f f' : FunctionDecl} {rest rest' : List FunctionDecl}
    (first : FunctionDecl.Renamed r moved f f')
    (others : FunctionDecl.RenamedEach r moved rest rest') :
    FunctionDecl.RenamedEach r moved (f :: rest) (f' :: rest')

end

theorem FunctionDecl.Renamed.name_eq {r : NameChange} {moved : Bool} {f f' : FunctionDecl}
    (same : f.Renamed r moved f') : f'.name = f.name := by
  cases same
  rfl

theorem NameChange.DeclaresEach.length_eq {r : NameChange} {sight behind : Sight}
    {params params' : List Lexeme} (declares : r.DeclaresEach sight params params' behind) :
    params'.length = params.length := by
  induction declares with
  | nil => rfl
  | cons _ _ ih => simp [ih]

/-! Looking names up. -/

/-- Two ways to look names up that find the same under the names that these have become. -/
structure Sees {α : Type} (r : NameChange) (moved : Bool) (find find' : String → Option α) :
    Prop where
  others : ∀ z, z ≠ r.new → (moved = true → z ≠ r.old) → find' z = find z
  own : moved = true → find' r.new = find r.old ∧ (find r.old).isSome = true

namespace Sees
variable {α β : Type} {r : NameChange} {moved : Bool} {find find' : String → Option α}

theorem refl (r : NameChange) (find : String → Option α) : Sees r false find find :=
  ⟨fun _ _ _ => rfl, nofun⟩

/-- A use finds the same as before, and a name that is not found has not changed. -/
theorem use (sees : Sees r moved find find') {name name' : Lexeme} (use : r.Uses moved name name') :
    find' name'.text = find name.text ∧ (find name.text = none → name' = name) := by
  rw [use.changed]
  by_cases own : moved = true ∧ name.text = r.old
  · obtain ⟨same, found⟩ := sees.own own.1
    rw [if_pos own, own.2]
    refine ⟨same, fun absent => ?_⟩
    rw [absent] at found
    contradiction
  · rw [if_neg own]
    exact ⟨sees.others _ use.unused fun here same => own ⟨here, same⟩, fun _ => rfl⟩

theorem this (sees : Sees r moved find find') : find' thisName = find thisName :=
  sees.others thisName r.new_ne_this.symm fun _ => r.old_ne_this.symm

theorem map (sees : Sees r moved find find') (f : α → β) :
    Sees r moved (fun z => (find z).map f) (fun z => (find' z).map f) where
  others z unused other := by rw [sees.others z unused other]
  own here := by
    obtain ⟨same, found⟩ := sees.own here
    rw [same]
    exact ⟨rfl, by simpa using found⟩

/-- Behind a declaration its name is found at the declaration. -/
theorem declare {sight behind : Sight} (sees : Sees r sight.moved find find') {name name' : Lexeme}
    (declares : r.Declares sight name name' behind) (a : α) :
    Sees r behind.moved (fun z => if name.text = z then some a else find z)
      (fun z => if name'.text = z then some a else find' z) := by
  cases declares with
  | kept unused =>
    constructor
    · intro z fresh other
      by_cases here : name.text = z
      · simp [here]
      · have old (moved : sight.moved = true) : z ≠ r.old := by
          rintro rfl
          exact other (by simp [moved, here]) rfl
        simp [here, sees.others z fresh old]
    · intro moved
      simp only [Sight.moved_shadow, Bool.and_eq_true, bne_iff_ne, ne_eq] at moved
      simp [unused, moved.2, sees.own moved.1]
  | changed own =>
    constructor
    · intro z fresh other
      have old : z ≠ r.old := other rfl
      have before : find' z = find z := sees.others z fresh fun _ => old
      simp [own, fresh.symm, old.symm, before]
    · intro _
      simp [own]

end Sees
end ScopeScript
