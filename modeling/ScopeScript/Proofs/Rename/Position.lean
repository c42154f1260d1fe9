import ScopeScript.Proofs.Rename.Findings
import ScopeScript.Proofs.Scope.Balance

/-! One declaration gets another name, and so do the uses that the noted distances lead to it. Which
uses these are can be told from what stands before them; they are those at which the old name means
the variable. -/
namespace ScopeScript

/-- A declaration to be renamed: how many marks stand before it, its name and its new name, and the
distances that are noted for the program. -/
structure Renaming where
  place : Nat
  old : String
  new : String
  noted : Distances

namespace Renaming

/-- The name of a declaration, told by all that stands before it. -/
def declared (r : Renaming) (before : List Mark) (name : Lexeme) : Lexeme :=
  if before.length = r.place then { name with text := r.new } else name

/-- The distance noted for a use leads to the declaration: so many of the scopes that were opened
since the declaration are still open. -/
def leads (r : Renaming) (before : List Mark) (id : ExprId) (name : Lexeme) : Bool :=
  name.text = r.old && r.place < before.length &&
    match r.noted.get? id with
    | none => false
    | some d => leftOpen (before.drop (r.place + 1)) = some d

def used (r : Renaming) (before : List Mark) (id : ExprId) (name : Lexeme) : Lexeme :=
  if r.leads before id name then { name with text := r.new } else name

/-- Parameters with what stands before the first of them. -/
def declaredEach (r : Renaming) (before : List Mark) : List Lexeme → List Lexeme
  | [] => []
  | p :: rest =>
    r.declared before p :: r.declaredEach (before ++ Mark.declared .ofParameter p) rest

end Renaming

namespace Expr

mutual

def rename (r : Renaming) (before : List Mark) : Expr → Expr
  | literal id value => literal id value
  | group id inner => group id (inner.rename r before)
  | var id name => var id (r.used before id name)
  | this id keyword => this id keyword
  | assign id name value =>
    assign id (r.used (before ++ value.marks) id name) (value.rename r before)
  | unary id op sign operand => unary id op sign (operand.rename r before)
  | binary id op sign left right =>
    binary id op sign (left.rename r before) (right.rename r (before ++ left.marks))
  | logical id op sign left right =>
    logical id op sign (left.rename r before) (right.rename r (before ++ left.marks))
  | call id callee arguments closing =>
    call id (callee.rename r before) (renameEach r (before ++ callee.marks) arguments) closing
  | get id object property => get id (object.rename r before) property
  | set id object property value =>
    set id (object.rename r before) property (value.rename r (before ++ object.marks))

def renameEach (r : Renaming) (before : List Mark) : List Expr → List Expr
  | [] => []
  | e :: rest => e.rename r before :: renameEach r (before ++ e.marks) rest

end

end Expr

def Superclass.rename (r : Renaming) (before : List Mark) (s : Superclass) : Superclass :=
  { s with name := r.used before s.id s.name }

mutual

def Stmt.rename (r : Renaming) (before : List Mark) : Stmt → Stmt
  | .expression value => .expression (value.rename r before)
  | .print value => .print (value.rename r before)
  | .var name initial =>
    .var (r.declared before name)
      (initial.map (Expr.rename r (before ++ [.declares .ofVariable name])))
  | .block body => .block (Stmt.renameEach r (before ++ [.opens .block]) body)
  | .ifThen condition yes =>
    .ifThen (condition.rename r before) (yes.rename r (before ++ condition.marks))
  | .ifElse condition yes no =>
    .ifElse (condition.rename r before) (yes.rename r (before ++ condition.marks))
      (no.rename r (before ++ condition.marks ++ yes.marks))
  | .whileLoop condition body =>
    .whileLoop (condition.rename r before) (body.rename r (before ++ condition.marks))
  | .function f => .function (f.rename r (before ++ Mark.declared .ofFunction f.name))
  | .returns keyword value =>
    .returns keyword (value.map (Expr.rename r (before ++ [.returns keyword])))
  | .classDecl name superclass methods =>
    .classDecl name
      (superclass.map fun s =>
        s.rename r (before ++ Mark.declared .ofClass name ++ [.inherits name s.name]))
      (FunctionDecl.renameEach r (before ++ Mark.declared .ofClass name ++
        Superclass.marks name superclass ++ [.opens .methods, .completes thisName]) methods)

def Stmt.renameEach (r : Renaming) (before : List Mark) : List Stmt → List Stmt
  | [] => []
  | s :: rest => s.rename r before :: Stmt.renameEach r (before ++ s.marks) rest

def FunctionDecl.rename (r : Renaming) (before : List Mark) : FunctionDecl → FunctionDecl
  | .mk name params body =>
    .mk name (r.declaredEach (before ++ [.opens .function]) params)
      (Stmt.renameEach r
        (before ++ [.opens .function] ++ params.flatMap (Mark.declared .ofParameter)) body)

def FunctionDecl.renameEach (r : Renaming) (before : List Mark) :
    List FunctionDecl → List FunctionDecl
  | [] => []
  | f :: rest => f.rename r before :: FunctionDecl.renameEach r (before ++ f.marks) rest

end

/-- The name that a mark declares or uses. -/
def Mark.name? : Mark → Option String
  | declares _ name | uses _ name => some name.text
  | _ => none

/-- A renaming that fits a text: it is about a local variable or a parameter, and the new name does
not occur. -/
structure Renaming.Fits (r : Renaming) (text : List Mark) : Prop where
  declares : ∃ kind name, text[r.place]? = some (.declares kind name) ∧ name.text = r.old ∧
    (kind = .ofVariable ∧ leftOpen (text.take r.place) ≠ some 0 ∨ kind = .ofParameter)
  spelled : ∀ mark ∈ text, mark.Spelled
  unused : ∀ mark ∈ text, mark.name? ≠ some r.new
  new_ne_this : r.new ≠ thisName

namespace Renaming
variable {r : Renaming} {text : List Mark}

theorem Fits.old_ne_this (fits : r.Fits text) : r.old ≠ thisName := by
  obtain ⟨kind, name, found, same, _⟩ := fits.declares
  rw [← same]
  exact fits.spelled _ (List.mem_of_getElem? found)

/-- The change of names that a renaming makes. -/
def Fits.change (fits : r.Fits text) : NameChange :=
  ⟨r.old, r.new, fits.old_ne_this, fits.new_ne_this⟩

/-! Where the place of the declaration lies. -/

variable {before piece : List Mark} {s : Scopes} {sight : Sight} {moved : Bool}

/-- The declaration lies outside a piece of text. -/
def Outside (r : Renaming) (before piece : List Mark) : Prop :=
  r.place < before.length ∨ before.length + piece.length ≤ r.place

/-- What stands between the declaration and a place behind it. -/
def gap (r : Renaming) (before : List Mark) : List Mark := before.drop (r.place + 1)

theorem Outside.earlier (outside : r.Outside before piece)
    (within : r.place < (before ++ piece).length) : r.place < before.length := by
  rw [List.length_append] at within
  unfold Outside at outside
  omega

theorem gap_append (earlier : r.place < before.length) (piece : List Mark) :
    r.gap (before ++ piece) = r.gap before ++ piece :=
  List.drop_append_of_le_length earlier

/-- The declaration lies outside a piece of the text or the piece has it. -/
theorem Fits.outside_or (fits : r.Fits text) (part : before ++ piece <+: text) :
    r.Outside before piece ∨ ∃ front kind name back, piece = front ++ .declares kind name :: back ∧
      before.length + front.length = r.place ∧ r.gap (before ++ piece) = back ∧
      name.text = r.old ∧
        (kind = .ofVariable ∧ leftOpen (text.take r.place) ≠ some 0 ∨ kind = .ofParameter) := by
  obtain ⟨kind, name, found, same, local'⟩ := fits.declares
  obtain ⟨rest, rfl⟩ := part
  by_cases inside : before.length ≤ r.place ∧ r.place < before.length + piece.length
  · right
    have here : piece[r.place - before.length]? = some (.declares kind name) := by
      rw [List.append_assoc, List.getElem?_append_right inside.1,
        List.getElem?_append_left (by omega)] at found
      exact found
    obtain ⟨bound, here⟩ := List.getElem?_eq_some_iff.mp here
    refine ⟨piece.take (r.place - before.length), kind, name,
      piece.drop (r.place - before.length + 1), ?_, ?_, ?_, same, local'⟩
    · rw [← here, List.getElem_cons_drop, List.take_append_drop]
    · rw [List.length_take]
      omega
    · rw [gap, List.drop_append, List.drop_eq_nil_of_le (by omega), List.nil_append]
      congr 1
      omega
  · left
    unfold Outside
    omega

theorem Fits.outside (fits : r.Fits text) (part : before ++ piece <+: text)
    (quiet : ∀ kind name, .declares kind name ∉ piece) : r.Outside before piece := by
  rcases fits.outside_or part with outside | ⟨front, kind, name, back, rfl, _⟩
  · exact outside
  · exact absurd (by simp) (quiet kind name)

/-- A piece that begins with a declaration and has no other one. -/
theorem Fits.outside_or_here (fits : r.Fits text) {kind : DeclarationKind} {name : Lexeme}
    {rest : List Mark} (part : before ++ .declares kind name :: rest <+: text)
    (only : ∀ kind name, .declares kind name ∉ rest) :
    before.length ≠ r.place ∧ r.Outside before (.declares kind name :: rest) ∨
      before.length = r.place ∧ r.gap (before ++ .declares kind name :: rest) = rest ∧
        name.text = r.old ∧
          (kind = .ofVariable ∧ leftOpen (text.take r.place) ≠ some 0 ∨ kind = .ofParameter) := by
  rcases fits.outside_or part with outside | ⟨front, kind', name', back, split, here, gap, own⟩
  · refine .inl ⟨fun here => ?_, outside⟩
    simp only [Outside, here, List.length_cons] at outside
    omega
  · cases front with
    | nil =>
      cases split
      exact .inr ⟨here, gap, own⟩
    | cons first front =>
      obtain ⟨_, later⟩ := List.cons.inj split
      exact absurd (by simp [later]) (only kind' name')

/-! What the old name means. -/

/-- The old name means the variable exactly if `moved` holds: the declaration stands before, and the
nearest scope with the old name is as far out as the scope of the declaration. -/
def Means (r : Renaming) (before : List Mark) (s : Scopes) (moved : Bool) : Prop :=
  moved = true ↔ r.place < before.length ∧
    ∃ d, leftOpen (r.gap before) = some d ∧ s.distance? r.old = some d

theorem leads_iff {id : ExprId} {name : Lexeme} :
    r.leads before id name = true ↔ name.text = r.old ∧ r.place < before.length ∧
      ∃ d, leftOpen (r.gap before) = some d ∧ r.noted.get? id = some d := by
  unfold leads gap
  cases r.noted.get? id <;> simp [and_assoc]

/-- A use is renamed if its name means the variable. -/
theorem Means.uses (means : r.Means before s moved) (fits : r.Fits text) {n : Notes}
    (notes : n.distances = r.noted) {id : ExprId} {name : Lexeme}
    (noted : s.Noted n id name) (member : .uses id name ∈ text) :
    fits.change.Uses moved name (r.used before id name) := by
  refine ⟨fun same => fits.unused _ member (congrArg some same), ?_⟩
  have distance : r.noted.get? id = s.distance? name.text := notes ▸ noted.2
  have same : r.leads before id name = true ↔ moved = true ∧ name.text = r.old := by
    unfold Means at means
    rw [leads_iff, means, distance]
    constructor
    · rintro ⟨own, earlier, d, opened, found⟩
      exact ⟨⟨earlier, d, opened, own ▸ found⟩, own⟩
    · rintro ⟨⟨earlier, d, opened, found⟩, own⟩
      exact ⟨own, earlier, d, opened, own.symm ▸ found⟩
  simp only [used, same]
  rfl

/-- Where the declaration lies outside, only the depth of the text counts. -/
theorem Means.append (means : r.Means before s moved) (outside : r.Outside before piece)
    (level : leftOpen piece = some 0) : r.Means (before ++ piece) s moved := by
  unfold Means at means ⊢
  rw [means, List.length_append]
  rcases outside with earlier | later
  · rw [gap_append earlier, leftOpen_append_of_some level]
    have still : r.place < before.length + piece.length := by omega
    simp [earlier, still]
  · have unseen : ¬r.place < before.length := by omega
    have still : ¬r.place < before.length + piece.length := by omega
    simp [unseen, still]

theorem Means.uses_append (means : r.Means before s moved) (fits : r.Fits text)
    (part : before ++ piece <+: text) (uses : ∀ mark ∈ piece, mark.use?.isSome = true) :
    r.Means (before ++ piece) s moved := by
  have outside := fits.outside part fun _ _ member => absurd (uses _ member) (by simp [Mark.use?])
  exact means.append outside (Closed.of_uses uses).leftOpen

end Renaming

/-! Expressions. -/

/-- The part of a text up to the end of the first of two pieces. -/
theorem prefix_of_append {text before first second : List Mark}
    (part : before ++ (first ++ second) <+: text) :
    before ++ first <+: text ∧ before ++ first ++ second <+: text := by
  rw [← List.append_assoc] at part
  exact ⟨(List.prefix_append _ _).trans part, part⟩

section Expressions
variable {r : Renaming} {text : List Mark} {s : Scopes} {moved : Bool} {n : Notes}

theorem mem_of_part {before piece : List Mark} (part : before ++ piece <+: text) {mark : Mark}
    (member : mark ∈ piece) : mark ∈ text :=
  part.subset (List.mem_append_right _ member)

mutual

theorem Expr.renamed (fits : r.Fits text) (notes : n.distances = r.noted) :
    ∀ (e : Expr) {before : List Mark}, r.Means before s moved → e.Scoped n s →
      before ++ e.marks <+: text → e.Renamed fits.change moved (e.rename r before)
  | .literal _ _, _, _, _, _ => .literal
  | .group _ inner, _, means, agrees, part => .group (inner.renamed fits notes means agrees part)
  | .var _ _, _, means, agrees, part =>
    .var (means.uses fits notes agrees (mem_of_part part List.mem_cons_self))
  | .this id keyword, _, _, _, part =>
    .this (fits.spelled (.this id keyword) (mem_of_part part List.mem_cons_self))
  | .assign id name value, _, means, agrees, part => by
    obtain ⟨first, second⟩ := prefix_of_append part
    have behind := means.uses_append fits first value.marks_use
    exact .assign (value.renamed fits notes means agrees.1 first)
      (behind.uses fits notes agrees.2 (mem_of_part second List.mem_cons_self))
  | .unary _ _ _ operand, _, means, agrees, part =>
    .unary (operand.renamed fits notes means agrees part)
  | .binary _ _ _ left right, _, means, agrees, part => by
    obtain ⟨first, second⟩ := prefix_of_append part
    have behind := means.uses_append fits first left.marks_use
    exact .binary (left.renamed fits notes means agrees.1 first)
      (right.renamed fits notes behind agrees.2 second)
  | .logical _ _ _ left right, _, means, agrees, part => by
    obtain ⟨first, second⟩ := prefix_of_append part
    have behind := means.uses_append fits first left.marks_use
    exact .logical (left.renamed fits notes means agrees.1 first)
      (right.renamed fits notes behind agrees.2 second)
  | .call _ callee arguments _, _, means, agrees, part => by
    obtain ⟨first, second⟩ := prefix_of_append part
    have behind := means.uses_append fits first callee.marks_use
    exact .call (callee.renamed fits notes means agrees.1 first)
      (Expr.renamedEach fits notes arguments behind agrees.2 second)
  | .get _ object _, _, means, agrees, part => .get (object.renamed fits notes means agrees part)
  | .set _ object _ value, _, means, agrees, part => by
    obtain ⟨first, second⟩ := prefix_of_append part
    have behind := means.uses_append fits first object.marks_use
    exact .set (object.renamed fits notes means agrees.1 first)
      (value.renamed fits notes behind agrees.2 second)

theorem Expr.renamedEach (fits : r.Fits text) (notes : n.distances = r.noted) :
    ∀ (es : List Expr) {before : List Mark}, r.Means before s moved → Expr.ScopedEach n s es →
      before ++ Expr.marksEach es <+: text →
      Expr.RenamedEach fits.change moved es (Expr.renameEach r before es)
  | [], _, _, _, _ => .nil
  | e :: rest, _, means, agrees, part => by
    obtain ⟨first, second⟩ := prefix_of_append part
    have behind := means.uses_append fits first e.marks_use
    exact .cons (e.renamed fits notes means agrees.1 first)
      (Expr.renamedEach fits notes rest behind agrees.2 second)

end

end Expressions

/-! Statements. -/

theorem Scopes.Fresh.distance?_ne_zero {s : Scopes} {x : String} (fresh : s.Fresh x) :
    s.distance? x ≠ some 0 := by
  obtain ⟨locals, globals⟩ := s
  cases locals with
  | nil => simp [Scopes.distance?]
  | cons scope outer =>
    have absent : x ∉ scope := fresh
    simp [Scopes.distance?, List.findIdx?_cons, absent]

namespace Renaming

/-- Between statements: what the old name means, and that the variable is among the names of its
scope as long as that is open. -/
structure At (r : Renaming) (before : List Mark) (s : Scopes) (sight : Sight) : Prop where
  depth : leftOpen before = some s.locals.length
  level : sight = .top ↔ s.locals = []
  means : r.Means before s sight.moved
  complete : r.place < before.length → ∀ d, leftOpen (r.gap before) = some d →
    ∃ names, s.locals[d]? = some names ∧ r.old ∈ names

variable {r : Renaming} {text before piece : List Mark} {s : Scopes} {sight : Sight}

theorem at_start (r : Renaming) (globals : List String) : r.At [] ⟨[], globals⟩ .top where
  depth := rfl
  level := by simp
  means := by simp [Means, Sight.moved]
  complete := nofun

namespace At

theorem complete_append (standing : r.At before s sight) (outside : r.Outside before piece)
    (level : leftOpen piece = some 0) (within : r.place < (before ++ piece).length) (d : Nat)
    (opened : leftOpen (r.gap (before ++ piece)) = some d) :
    ∃ names, s.locals[d]? = some names ∧ r.old ∈ names := by
  have earlier := outside.earlier within
  rw [gap_append earlier, leftOpen_append_of_some level] at opened
  exact standing.complete earlier d (by simpa using opened)

/-- Code that leaves no scope open leaves everything as it was. -/
theorem closed (standing : r.At before s sight) (fits : r.Fits text)
    (part : before ++ piece <+: text) (closed : Closed piece) : r.At (before ++ piece) s sight := by
  have depth : leftOpen (before ++ piece) = some s.locals.length := by
    rw [leftOpen_append_of_some closed.leftOpen, standing.depth]
    rfl
  rcases fits.outside_or part with outside | ⟨front, kind, name, back, split, here, gap, _⟩
  · exact ⟨depth, standing.level, standing.means.append outside closed.leftOpen,
      standing.complete_append outside closed.leftOpen⟩
  · have left : leftOpen back = none := closed.declares front kind name back split
    have unseen : ¬r.place < before.length := by omega
    refine ⟨depth, standing.level, ?_, ?_⟩
    · have means := standing.means
      unfold Means at means ⊢
      rw [means, gap, left]
      simp [unseen]
    · intro _ d opened
      rw [gap, left] at opened
      contradiction

/-- A new scope. -/
theorem enter (standing : r.At before s sight) (fits : r.Fits text) {kind : ScopeKind}
    (part : before ++ [.opens kind] <+: text) :
    r.At (before ++ [.opens kind]) (s.enter []) (.inside sight.moved) := by
  have opened : leftOpen [.opens kind] = some 1 := rfl
  have outside : r.Outside before [.opens kind] := fits.outside part (by simp)
  have depth : leftOpen (before ++ [.opens kind]) = some (s.enter []).locals.length := by
    rw [leftOpen_append_of_some opened, standing.depth]
    rfl
  refine ⟨depth, by simp [Scopes.enter], ?_, ?_⟩
  · have means := standing.means
    unfold Means at means ⊢
    rw [Scopes.distance?_enter, Sight.moved, means]
    constructor
    · rintro ⟨earlier, d, left, found⟩
      rw [gap_append earlier, leftOpen_append_of_some opened, left]
      exact ⟨by simp; omega, d + 1, rfl, by simp [found]⟩
    · rintro ⟨within, d, left, found⟩
      have earlier := outside.earlier within
      rw [gap_append earlier, leftOpen_append_of_some opened, Option.map_eq_some_iff] at left
      obtain ⟨e, left, rfl⟩ := left
      exact ⟨earlier, e, left, by simpa using found⟩
  · intro within d left
    have earlier := outside.earlier within
    rw [gap_append earlier, leftOpen_append_of_some opened, Option.map_eq_some_iff] at left
    obtain ⟨e, left, rfl⟩ := left
    exact standing.complete earlier e left

/-- A declaration that keeps its name. If that is the old name, then it no longer means the
variable. -/
theorem keep (standing : r.At before s sight) (fits : r.Fits text)
    (outside : r.Outside before piece) (level : leftOpen piece = some 0) {x : String}
    (fresh : s.Fresh x) : r.At (before ++ piece) (s.declare x) (sight.shadow fits.change x) := by
  have depth : leftOpen (before ++ piece) = some s.locals.length := by
    rw [leftOpen_append_of_some level, standing.depth]
    rfl
  have means := standing.means.append outside level
  have complete := standing.complete_append outside level
  obtain ⟨locals, globals⟩ := s
  cases locals with
  | nil =>
    obtain rfl := standing.level.mpr rfl
    exact ⟨depth, by simp [Sight.shadow, Scopes.declare], means, complete⟩
  | cons scope outer =>
    cases sight with
    | top => cases standing.level.mp rfl
    | inside moved =>
      refine ⟨depth, by simp [Sight.shadow, Scopes.declare], ?_, ?_⟩
      · unfold Means at means ⊢
        rw [Scopes.distance?_declare rfl, Sight.moved_shadow]
        by_cases own : x = r.old
        · have other : fits.change.old = x := own.symm
          simp only [other, bne_self_eq_false, Bool.and_false, Bool.false_eq_true, false_iff]
          rintro ⟨earlier, d, left, found⟩
          rw [if_pos own] at found
          cases found
          obtain ⟨names, here, member⟩ := complete earlier 0 left
          cases here
          exact fresh (own ▸ member)
        · have other : (x != fits.change.old) = true := bne_iff_ne.mpr own
          rw [other, Bool.and_true, means]
          simp only [if_neg own]
      · intro earlier d left
        obtain ⟨names, here, member⟩ := complete earlier d left
        cases d with
        | zero =>
          cases here
          exact ⟨_, rfl, List.mem_cons_of_mem _ member⟩
        | succ d => exact ⟨names, here, member⟩

/-- The declaration itself. -/
theorem change (standing : r.At before s sight) (here : before.length = r.place)
    (nonempty : 0 < piece.length) (level : leftOpen piece = some 0)
    (behind : leftOpen (r.gap (before ++ piece)) = some 0) (inside : s.locals ≠ []) :
    r.At (before ++ piece) (s.declare r.old) (.inside true) := by
  have depth : leftOpen (before ++ piece) = some s.locals.length := by
    rw [leftOpen_append_of_some level, standing.depth]
    rfl
  have earlier : r.place < (before ++ piece).length := by
    rw [List.length_append]
    omega
  obtain ⟨locals, globals⟩ := s
  cases locals with
  | nil => contradiction
  | cons scope outer =>
    refine ⟨depth, by simp [Scopes.declare], ?_, ?_⟩
    · unfold Means
      rw [Scopes.distance?_declare rfl]
      exact iff_of_true rfl ⟨earlier, 0, behind, if_pos rfl⟩
    · intro _ d left
      cases behind.symm.trans left
      exact ⟨_, rfl, List.mem_cons_self⟩

/-- In the initial value of a variable its name does not mean the variable. -/
theorem initialValue (standing : r.At before s sight) (fits : r.Fits text)
    {kind : DeclarationKind} {name : Lexeme} (part : before ++ [.declares kind name] <+: text)
    (fresh : s.Fresh name.text) :
    r.Means (before ++ [.declares kind name]) s sight.moved := by
  rcases fits.outside_or_here part (by simp) with ⟨_, outside⟩ | ⟨here, gap, own, _⟩
  · exact standing.means.append outside rfl
  · have unseen : ¬r.place < before.length := by omega
    have means := standing.means
    unfold Means at means ⊢
    rw [means, gap]
    refine iff_of_false (fun seen => unseen seen.1) ?_
    rintro ⟨_, d, left, found⟩
    cases left
    rw [← own] at found
    exact fresh.distance?_ne_zero found

/-- A variable or a parameter with its initial value, if it has one. -/
theorem declare (standing : r.At before s sight) (fits : r.Fits text) {kind : DeclarationKind}
    {name : Lexeme} {middle : List Mark}
    (part : before ++ .declares kind name :: (middle ++ [.completes name.text]) <+: text)
    (uses : ∀ mark ∈ middle, mark.use?.isSome = true) (fresh : s.Fresh name.text)
    (inside : kind = .ofParameter → s.locals ≠ []) :
    ∃ behind, fits.change.Declares sight name (r.declared before name) behind ∧
      r.At (before ++ .declares kind name :: (middle ++ [.completes name.text]))
        (s.declare name.text) behind := by
  have value := (Closed.of_uses uses).leftOpen
  have complete : leftOpen [.completes name.text] = some 0 := rfl
  have rest := leftOpen_append_zero value complete
  have level : leftOpen (.declares kind name :: (middle ++ [.completes name.text])) = some 0 := rest
  have only (kind' : DeclarationKind) (name' : Lexeme) :
      Mark.declares kind' name' ∉ middle ++ [.completes name.text] := by
    intro member
    rcases List.mem_append.mp member with inner | last
    · exact absurd (uses _ inner) (by simp [Mark.use?])
    · simp at last
  have unused : name.text ≠ r.new := fun same =>
    fits.unused _ (mem_of_part part List.mem_cons_self) (congrArg some same)
  rcases fits.outside_or_here part only with ⟨other, outside⟩ | ⟨here, gap, own, isLocal⟩
  · rw [declared, if_neg other]
    exact ⟨_, .kept unused, standing.keep fits outside level fresh⟩
  · have nested : s.locals ≠ [] := by
      rcases isLocal with ⟨_, nested⟩ | parameter
      · intro top
        have taken : text.take r.place = before := by
          obtain ⟨_, rfl⟩ := part
          rw [← here, List.append_assoc, List.take_left]
        rw [taken, standing.depth, top] at nested
        exact nested rfl
      · exact inside parameter
    cases sight with
    | top => exact absurd (standing.level.mp rfl) nested
    | inside moved =>
      have changed := standing.change here (by simp) level (by rw [gap, rest]) nested
      rw [← own] at changed
      rw [declared, if_pos here]
      exact ⟨_, .changed own, changed⟩

/-- A function or a class, which keeps its name. -/
theorem declareKept (standing : r.At before s sight) (fits : r.Fits text) {kind : DeclarationKind}
    {name : Lexeme} (part : before ++ Mark.declared kind name <+: text)
    (fresh : s.Fresh name.text) (other : kind = .ofFunction ∨ kind = .ofClass) :
    name.text ≠ r.new ∧ r.At (before ++ Mark.declared kind name) (s.declare name.text)
      (sight.shadow fits.change name.text) := by
  refine ⟨fun same =>
    fits.unused _ (mem_of_part part List.mem_cons_self) (congrArg some same), ?_⟩
  rcases fits.outside_or_here part (by simp) with ⟨_, outside⟩ | ⟨_, _, _, isLocal⟩
  · exact standing.keep fits outside rfl fresh
  · rcases other with rfl | rfl <;> simp at isLocal

/-- The scope of the methods of a class. -/
theorem classBody (standing : r.At before s sight) (fits : r.Fits text)
    (part : before ++ [.opens .methods, .completes thisName] <+: text) :
    r.At (before ++ [.opens .methods, .completes thisName]) (s.enter [thisName])
      (.inside sight.moved) := by
  have part : before ++ ([.opens .methods] ++ [.completes thisName]) <+: text := part
  obtain ⟨first, second⟩ := prefix_of_append part
  have entered := standing.enter fits first
  have outside := fits.outside second (by simp)
  have named := entered.keep (x := thisName) fits outside rfl List.not_mem_nil
  have still : (Sight.inside sight.moved).shadow fits.change thisName = .inside sight.moved := by
    simp [Sight.shadow, fits.change.old_ne_this.symm]
  rw [still, List.append_assoc] at named
  exact named

theorem declareEach (fits : r.Fits text) {params : List Lexeme} {before : List Mark} {s : Scopes}
    {sight : Sight} (standing : r.At before s sight)
    (part : before ++ params.flatMap (Mark.declared .ofParameter) <+: text)
    (fresh : s.FreshParams params) (inside : s.locals ≠ []) :
    ∃ behind, fits.change.DeclaresEach sight params (r.declaredEach before params) behind ∧
      r.At (before ++ params.flatMap (Mark.declared .ofParameter)) (s.declareParams params)
        behind := by
  induction params generalizing before s sight with
  | nil => exact ⟨sight, .nil, (List.append_nil before).symm ▸ standing⟩
  | cons p rest ih =>
    obtain ⟨first, second⟩ := prefix_of_append part
    have first : before ++ .declares .ofParameter p :: ([] ++ [.completes p.text]) <+: text := first
    obtain ⟨next, declares, standing⟩ :=
      standing.declare fits first nofun fresh.1 fun _ => inside
    have nested : (s.declare p.text).locals ≠ [] := by
      unfold Scopes.declare
      split
      · contradiction
      · simp
    obtain ⟨behind, others, standing⟩ := ih standing second fresh.2 nested
    refine ⟨behind, .cons declares others, ?_⟩
    rw [List.flatMap_cons, ← List.append_assoc]
    exact standing

end At
end Renaming

section Statements
variable {r : Renaming} {text : List Mark} {n : Notes}

theorem renamedOptional (fits : r.Fits text) (notes : n.distances = r.noted) {s : Scopes}
    {moved : Bool} {before : List Mark} (means : r.Means before s moved) {value : Option Expr}
    (agrees : ∀ e, value = some e → e.Scoped n s)
    (part : before ++ marksOptional value <+: text) :
    Option.Rel (Expr.Renamed fits.change moved) value (value.map (Expr.rename r before)) := by
  cases value with
  | none => exact .none
  | some e => exact .some (e.renamed fits notes means (agrees e rfl) part)

theorem Superclass.renamed (fits : r.Fits text) (notes : n.distances = r.noted) {c : Context}
    {moved : Bool} {before : List Mark} (means : r.Means before c.scopes moved) {name : Lexeme}
    {superclass : Option Superclass}
    (agrees : match superclass with
      | none => True
      | some s => c.scopes.Noted n s.id s.name)
    (part : before ++ Superclass.marks name superclass <+: text) :
    Option.Rel (Superclass.Renamed fits.change moved) superclass
      (superclass.map fun s => s.rename r (before ++ [.inherits name s.name])) := by
  cases superclass with
  | none => exact .none
  | some s =>
    have split : before ++ ([.inherits name s.name] ++ [.uses s.id s.name]) <+: text := part
    obtain ⟨first, second⟩ := prefix_of_append split
    have behind := means.append (fits.outside first (by simp)) rfl
    have member := mem_of_part second List.mem_cons_self
    exact .some ⟨rfl, behind.uses fits notes agrees member⟩

/-- A statement is renamed, and behind it the old name means what it should. -/
def Stmt.Goes (fits : r.Fits text) (before : List Mark) (c : Context) (sight : Sight) (s : Stmt) :
    Prop :=
  ∃ behind, s.Renamed fits.change sight (s.rename r before) behind ∧
    r.At (before ++ s.marks) (c.after s).scopes behind

/-- Behind a statement that is not a declaration everything is as before. -/
theorem Stmt.Goes.plain {fits : r.Fits text} {before : List Mark} {c : Context} {sight : Sight}
    {s : Stmt} (goes : s.Goes fits before c sight) (statement : s.isDeclaration = false) :
    ∃ last, s.Renamed fits.change sight (s.rename r before) last ∧
      r.At (before ++ s.marks) c.scopes sight := by
  obtain ⟨behind, renamed, standing⟩ := goes
  rw [Context.after_of_not_declaration statement, renamed.behind_eq statement] at standing
  exact ⟨behind, renamed, standing⟩

mutual

theorem Stmt.goes (fits : r.Fits text) (notes : n.distances = r.noted) :
    ∀ (s : Stmt) {before : List Mark} {c : Context} {sight : Sight}, r.At before c.scopes sight →
      s.Scoped n c → before ++ s.marks <+: text → s.Goes fits before c sight
  | .expression value, _, _, _, standing, agrees, part =>
    ⟨_, .expression (value.renamed fits notes standing.means agrees part),
      standing.closed fits part (.of_uses value.marks_use)⟩
  | .print value, _, _, _, standing, agrees, part =>
    ⟨_, .print (value.renamed fits notes standing.means agrees part),
      standing.closed fits part (.of_uses value.marks_use)⟩
  | .var name initial, before, c, _, standing, agrees, part => by
    have split : before ++ ([.declares .ofVariable name] ++
        (marksOptional initial ++ [.completes name.text])) <+: text := part
    obtain ⟨first, rest⟩ := prefix_of_append split
    have means := standing.initialValue fits first agrees.1
    have value : ∀ e, initial = some e → e.Scoped n c.scopes := by
      rintro e rfl
      exact agrees.2
    obtain ⟨behind, declares, standing⟩ :=
      standing.declare fits part (marksOptional_use initial) agrees.1 nofun
    exact ⟨behind, .var declares
      (renamedOptional fits notes means value (prefix_of_append rest).1), standing⟩
  | .block body, before, _, _, standing, agrees, part => by
    have split : before ++ ([.opens .block] ++ (Stmt.marksEach body ++ [.closes])) <+: text := part
    obtain ⟨first, rest⟩ := prefix_of_append split
    obtain ⟨last, inner, _⟩ := Stmt.goesEach fits notes body (standing.enter fits first) agrees
      (prefix_of_append rest).1
    exact ⟨_, .block inner,
      standing.closed fits part (.scope (Stmt.leftOpen_marksEach body) .block)⟩
  | .ifThen condition yes, _, _, _, standing, agrees, part => by
    obtain ⟨first, second⟩ := prefix_of_append part
    have tested := standing.closed fits first (.of_uses condition.marks_use)
    obtain ⟨last, branch, standing'⟩ :=
      (yes.goes fits notes tested agrees.2.2 second).plain agrees.2.1
    rw [List.append_assoc] at standing'
    exact ⟨_, .ifThen (condition.renamed fits notes standing.means agrees.1 first) branch,
      standing'⟩
  | .ifElse condition yes no, _, _, _, standing, agrees, part => by
    obtain ⟨first, rest⟩ := prefix_of_append part
    obtain ⟨second, third⟩ := prefix_of_append rest
    have tested := standing.closed fits first (.of_uses condition.marks_use)
    obtain ⟨_, branch, passed⟩ :=
      (yes.goes fits notes tested agrees.2.1.2 second).plain agrees.2.1.1
    obtain ⟨_, other, standing'⟩ :=
      (no.goes fits notes passed agrees.2.2.2 third).plain agrees.2.2.1
    rw [List.append_assoc, List.append_assoc] at standing'
    exact ⟨_, .ifElse (condition.renamed fits notes standing.means agrees.1 first) branch other,
      standing'⟩
  | .whileLoop condition body, _, _, _, standing, agrees, part => by
    obtain ⟨first, second⟩ := prefix_of_append part
    have tested := standing.closed fits first (.of_uses condition.marks_use)
    obtain ⟨last, inner, standing'⟩ :=
      (body.goes fits notes tested agrees.2.2 second).plain agrees.2.1
    rw [List.append_assoc] at standing'
    exact ⟨_, .whileLoop (condition.renamed fits notes standing.means agrees.1 first) inner,
      standing'⟩
  | .function f, _, _, _, standing, agrees, part => by
    obtain ⟨first, second⟩ := prefix_of_append part
    obtain ⟨unused, named⟩ := standing.declareKept fits first agrees.1 (.inl rfl)
    have behind := named.closed fits second f.closed
    rw [List.append_assoc] at behind
    exact ⟨_, .function unused (f.goes fits notes named agrees.2 second), behind⟩
  | .returns keyword value, before, c, _, standing, agrees, part => by
    have split : before ++ ([.returns keyword] ++ marksOptional value) <+: text := part
    obtain ⟨first, second⟩ := prefix_of_append split
    have passed := standing.closed fits first
      (.of_level (by simp [Mark.Level, Mark.depth]) (by simp))
    have given : ∀ e, value = some e → e.Scoped n c.scopes := by
      rintro e rfl
      exact agrees.2
    have behind := passed.closed fits second (.of_uses (marksOptional_use value))
    rw [List.append_assoc] at behind
    exact ⟨_, .returns (renamedOptional fits notes passed.means given second), behind⟩
  | .classDecl name superclass methods, before, c, _, standing, agrees, part => by
    obtain ⟨first, rest⟩ := prefix_of_append part
    obtain ⟨second, third⟩ := prefix_of_append rest
    obtain ⟨unused, named⟩ := standing.declareKept fits first agrees.1 (.inr rfl)
    have parent := Superclass.renamed fits notes named.means agrees.2.1 second
    have inherited := named.closed fits second (Superclass.closed name superclass)
    have split : before ++ Mark.declared .ofClass name ++ Superclass.marks name superclass ++
        ([.opens .methods, .completes thisName] ++
          (FunctionDecl.marksEach methods ++ [.closes])) <+: text := third
    obtain ⟨opened, rest⟩ := prefix_of_append split
    have inside := inherited.classBody fits opened
    have inner := FunctionDecl.goesEach fits notes methods inside agrees.2.2
      (prefix_of_append rest).1
    have level : leftOpen (.completes thisName :: FunctionDecl.marksEach methods) = some 0 :=
      (FunctionDecl.closedEach methods).leftOpen
    have behind := inherited.closed fits third (.scope level .methods)
    rw [List.append_assoc, List.append_assoc] at behind
    exact ⟨_, .classDecl unused parent inner, behind⟩

theorem Stmt.goesEach (fits : r.Fits text) (notes : n.distances = r.noted) :
    ∀ (body : List Stmt) {before : List Mark} {c : Context} {sight : Sight},
      r.At before c.scopes sight → Stmt.ScopedEach n c body →
      before ++ Stmt.marksEach body <+: text →
      ∃ behind, Stmt.RenamedEach fits.change sight body (Stmt.renameEach r before body) behind ∧
        r.At (before ++ Stmt.marksEach body) (body.foldl Context.after c).scopes behind
  | [], before, _, _, standing, _, _ => ⟨_, .nil, (List.append_nil before).symm ▸ standing⟩
  | s :: rest, _, _, _, standing, agrees, part => by
    obtain ⟨first, second⟩ := prefix_of_append part
    obtain ⟨_, renamed, next⟩ := s.goes fits notes standing agrees.1 first
    obtain ⟨behind, others, last⟩ := Stmt.goesEach fits notes rest next agrees.2 second
    rw [List.append_assoc] at last
    exact ⟨behind, .cons renamed others, last⟩

theorem FunctionDecl.goes (fits : r.Fits text) (notes : n.distances = r.noted) :
    ∀ (f : FunctionDecl) {before : List Mark} {c : Context} {sight : Sight},
      r.At before c.scopes sight → f.Scoped n c → before ++ f.marks <+: text →
      f.Renamed fits.change sight.moved (f.rename r before)
  | .mk _ params body, before, c, _, standing, agrees, part => by
    have split : before ++ ([.opens .function] ++ (params.flatMap (Mark.declared .ofParameter) ++
        (Stmt.marksEach body ++ [.closes]))) <+: text := part
    obtain ⟨first, rest⟩ := prefix_of_append split
    obtain ⟨second, rest⟩ := prefix_of_append rest
    have entered := standing.enter fits first
    obtain ⟨start, declares, named⟩ :=
      entered.declareEach fits second agrees.1 (by simp [Scopes.enter])
    have named : r.At _ (c.functionBody params).scopes start := named
    obtain ⟨_, inner, _⟩ := Stmt.goesEach fits notes body named agrees.2 (prefix_of_append rest).1
    exact .mk declares inner

theorem FunctionDecl.goesEach (fits : r.Fits text) (notes : n.distances = r.noted) :
    ∀ (fs : List FunctionDecl) {before : List Mark} {c : Context} {sight : Sight},
      r.At before c.scopes sight → FunctionDecl.ScopedEach n c fs →
      before ++ FunctionDecl.marksEach fs <+: text →
      FunctionDecl.RenamedEach fits.change sight.moved fs (FunctionDecl.renameEach r before fs)
  | [], _, _, _, _, _, _ => .nil
  | f :: rest, _, _, _, standing, agrees, part => by
    obtain ⟨first, second⟩ := prefix_of_append part
    have next := standing.closed fits first f.closed
    exact .cons (f.goes fits notes standing agrees.1 first)
      (FunctionDecl.goesEach fits notes rest next agrees.2 second)

end

end Statements
end ScopeScript
