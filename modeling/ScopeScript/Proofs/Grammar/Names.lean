import ScopeScript.Proofs.Checks
import ScopeScript.Proofs.Grammar.Sound
import ScopeScript.Proofs.Scope.Standing
import ScopeScript.Proofs.Token.Join
import ScopeScript.Proofs.Token.Longest

/-! The names in a parsed program are names of its text. No keyword is declared, and only the
keyword `this` stands for `this`. -/
namespace ScopeScript
open Grammar

/-! Numbers and lines do not matter for how names are spelled. -/

def Mark.relabel (r : Relabel) : Mark → Mark
  | opens kind => opens kind
  | closes => closes
  | declares kind name => declares kind (name.relabel r)
  | completes name => completes name
  | uses id name => uses (r.id id) (name.relabel r)
  | this id keyword => this (r.id id) (keyword.relabel r)
  | returns keyword => returns (keyword.relabel r)
  | inherits name parent => inherits (name.relabel r) (parent.relabel r)

theorem Mark.spelled_relabel (r : Relabel) (mark : Mark) :
    (mark.relabel r).Spelled ↔ mark.Spelled := by
  cases mark <;> exact Iff.rfl

section Relabel
variable (r : Relabel)

mutual

theorem Expr.marks_relabel : ∀ e : Expr, (e.relabel r).marks = e.marks.map (Mark.relabel r)
  | .literal _ _ | .var _ _ | .this _ _ => rfl
  | .group _ inner => inner.marks_relabel
  | .assign _ _ value => by
    simp only [Expr.relabel, Expr.marks, value.marks_relabel, List.map_append]
    rfl
  | .unary _ _ _ operand => operand.marks_relabel
  | .binary _ _ _ left right | .logical _ _ _ left right | .set _ left _ right => by
    simp only [Expr.relabel, Expr.marks, left.marks_relabel, right.marks_relabel, List.map_append]
  | .call _ callee arguments _ => by
    simp only [Expr.relabel, Expr.marks, callee.marks_relabel, Expr.marksEach_relabel arguments,
      List.map_append]
  | .get _ object _ => object.marks_relabel

theorem Expr.marksEach_relabel : ∀ es : List Expr,
    Expr.marksEach (Expr.relabelEach r es) = (Expr.marksEach es).map (Mark.relabel r)
  | [] => rfl
  | e :: rest => by
    simp only [Expr.relabelEach, Expr.marksEach, e.marks_relabel, Expr.marksEach_relabel rest,
      List.map_append]

end

theorem marksOptional_relabel (value : Option Expr) :
    marksOptional (value.map (Expr.relabel r)) = (marksOptional value).map (Mark.relabel r) := by
  cases value with
  | none => rfl
  | some e => exact e.marks_relabel r

theorem Superclass.marks_relabel (name : Lexeme) (superclass : Option Superclass) :
    Superclass.marks (name.relabel r) (superclass.map (Superclass.relabel r)) =
      (Superclass.marks name superclass).map (Mark.relabel r) := by
  cases superclass <;> rfl

theorem Mark.declared_relabel (kind : DeclarationKind) (name : Lexeme) :
    declared kind (name.relabel r) = (declared kind name).map (Mark.relabel r) := rfl

mutual

theorem Stmt.marks_relabel : ∀ s : Stmt, (s.relabel r).marks = s.marks.map (Mark.relabel r)
  | .expression value | .print value => value.marks_relabel r
  | .var name initial => by
    simp only [Stmt.relabel, Stmt.marks, marksOptional_relabel, List.map_cons, List.map_append]
    rfl
  | .block body => by
    simp only [Stmt.relabel, Stmt.marks, Stmt.marksEach_relabel body, List.map_cons,
      List.map_append]
    rfl
  | .ifThen condition body | .whileLoop condition body => by
    simp only [Stmt.relabel, Stmt.marks, condition.marks_relabel, body.marks_relabel,
      List.map_append]
  | .ifElse condition yes no => by
    simp only [Stmt.relabel, Stmt.marks, condition.marks_relabel, yes.marks_relabel,
      no.marks_relabel, List.map_append]
  | .function declaration => by
    simp only [Stmt.relabel, Stmt.marks, declaration.marks_relabel, FunctionDecl.relabel_name,
      Mark.declared_relabel, List.map_append]
  | .returns keyword value => by
    simp only [Stmt.relabel, Stmt.marks, marksOptional_relabel, List.map_cons]
    rfl
  | .classDecl name superclass methods => by
    simp only [Stmt.relabel, Stmt.marks, Superclass.marks_relabel, Mark.declared_relabel,
      FunctionDecl.marksEach_relabel methods, List.map_append, List.map_cons]
    rfl

theorem Stmt.marksEach_relabel : ∀ body : List Stmt,
    Stmt.marksEach (Stmt.relabelEach r body) = (Stmt.marksEach body).map (Mark.relabel r)
  | [] => rfl
  | s :: rest => by
    simp only [Stmt.relabelEach, Stmt.marksEach, s.marks_relabel, Stmt.marksEach_relabel rest,
      List.map_append]

theorem FunctionDecl.marks_relabel : ∀ f : FunctionDecl,
    (f.relabel r).marks = f.marks.map (Mark.relabel r)
  | .mk _ params body => by
    simp only [FunctionDecl.relabel, FunctionDecl.marks, Stmt.marksEach_relabel body,
      List.map_append, List.map_cons, List.map_flatMap, List.flatMap_map, Mark.declared_relabel]
    rfl

theorem FunctionDecl.marksEach_relabel : ∀ fs : List FunctionDecl,
    FunctionDecl.marksEach (FunctionDecl.relabelEach r fs) =
      (FunctionDecl.marksEach fs).map (Mark.relabel r)
  | [] => rfl
  | f :: rest => by
    simp only [FunctionDecl.relabelEach, FunctionDecl.marksEach, f.marks_relabel,
      FunctionDecl.marksEach_relabel rest, List.map_append]

end

end Relabel

/-! What is derived from well spelled tokens. -/

/-- Tokens are spelled as their kinds have it. -/
def Spelt (ts : List Token) : Prop := ∀ t ∈ ts, Spells t.text.toList t.kind

/-- Marks that are spelled as the language has it. -/
def MarksSpelled (marks : List Mark) : Prop := ∀ mark ∈ marks, mark.Spelled

theorem spelt_cons {t : Token} {ts : List Token} :
    Spelt (t :: ts) ↔ Spells t.text.toList t.kind ∧ Spelt ts := List.forall_mem_cons

theorem spelt_append {ts us : List Token} : Spelt (ts ++ us) ↔ Spelt ts ∧ Spelt us :=
  List.forall_mem_append

@[simp] theorem marksSpelled_nil : MarksSpelled [] := nofun

@[simp] theorem marksSpelled_cons {mark : Mark} {marks : List Mark} :
    MarksSpelled (mark :: marks) ↔ mark.Spelled ∧ MarksSpelled marks := List.forall_mem_cons

@[simp] theorem marksSpelled_append {marks more : List Mark} :
    MarksSpelled (marks ++ more) ↔ MarksSpelled marks ∧ MarksSpelled more :=
  List.forall_mem_append

theorem text_ne_thisName {t : Token} (isName : t.kind = .identifier)
    (spells : Spells t.text.toList t.kind) : t.text ≠ thisName := by
  rw [isName] at spells
  intro same
  generalize text : t.text.toList = cs at spells
  cases spells with
  | identifier _ _ other =>
    rw [same] at text
    exact other .kwThis text

theorem text_eq_thisName {t : Token} (isThis : t.kind = .keyword .kwThis)
    (spells : Spells t.text.toList t.kind) : t.text = thisName := by
  rw [isThis] at spells
  generalize text : t.text.toList = cs at spells
  cases spells with
  | keyword => exact String.toList_inj.mp text

/-- The items of a list stand among its tokens. -/
theorem Grammar.Listed.spelt {items : List (List Token)} {ts : List Token}
    (listed : Listed items ts) (spelt : Spelt ts) : ∀ item ∈ items, Spelt item := by
  induction listed with
  | none => nofun
  | one item => simpa using spelt
  | more _ _ ih =>
    obtain ⟨first, rest⟩ := spelt_append.mp spelt
    exact List.forall_mem_cons.mpr ⟨first, ih (spelt_cons.mp rest).2⟩

theorem Spelt.mem {α : Type} {parts : List (Passage α)}
    (spelt : Spelt (parts.flatMap Passage.tokens)) : ∀ p ∈ parts, Spelt p.tokens :=
  fun p member t inside => spelt t (List.mem_flatMap.mpr ⟨p, member, inside⟩)

/-- The marks of parts that are read one by one. -/
theorem marksSpelled_trees {α : Type} {parts : List (Passage α)} (marks : α → List Mark)
    (each : ∀ p ∈ parts, MarksSpelled (marks p.tree)) :
    MarksSpelled ((parts.map Passage.tree).flatMap marks) := by
  intro mark member
  obtain ⟨tree, isTree, member⟩ := List.mem_flatMap.mp member
  obtain ⟨part, isPart, rfl⟩ := List.mem_map.mp isTree
  exact each part isPart mark member

theorem Expr.marksEach_eq_flatMap (es : List Expr) : marksEach es = es.flatMap marks := by
  induction es with
  | nil => rfl
  | cons e rest ih => rw [marksEach, ih, List.flatMap_cons]

theorem Grammar.Derives.spelled {n : Phrase} {ts : List Token} {e : Expr}
    (derives : Derives n ts e) (spelt : Spelt ts) : MarksSpelled e.marks := by
  induction derives with
  | expression _ ih | operation _ ih | operand _ ih | unsigned _ ih | primary _ ih => exact ih spelt
  | assign isName _ _ ih =>
    simp only [spelt_cons] at spelt
    simpa [Expr.marks, Mark.Spelled] using ⟨ih spelt.2.2, text_ne_thisName isName spelt.1⟩
  | set _ _ _ _ _ ih ih' =>
    simp only [spelt_append, spelt_cons] at spelt
    simpa [Expr.marks] using ⟨ih spelt.1, ih' spelt.2.2.2.2⟩
  | @infixed _ _ _ _ op _ _ _ _ _ ih ih' =>
    simp only [spelt_append, spelt_cons] at spelt
    cases op <;> simpa [InfixOp.node, Expr.marks] using ⟨ih spelt.1, ih' spelt.2.2⟩
  | signed _ _ ih => exact ih (spelt_cons.mp spelt).2
  | call _ _ each listed _ _ ih ih' =>
    simp only [spelt_append, spelt_cons] at spelt
    obtain ⟨callee, _, arguments, _⟩ := spelt
    simp only [Expr.marks, marksSpelled_append, Expr.marksEach_eq_flatMap]
    refine ⟨ih callee, marksSpelled_trees Expr.marks fun part isPart => ih' part isPart ?_⟩
    exact listed.spelt arguments _ (List.mem_map_of_mem isPart)
  | get _ _ _ ih => exact ih (spelt_append.mp spelt).1
  | literal _ => exact List.forall_mem_nil _
  | this isThis =>
    simpa [Expr.marks, Mark.Spelled] using text_eq_thisName isThis (spelt_cons.mp spelt).1
  | var isName =>
    simpa [Expr.marks, Mark.Spelled] using text_ne_thisName isName (spelt_cons.mp spelt).1
  | group _ _ _ ih =>
    simp only [spelt_cons, spelt_append] at spelt
    exact ih spelt.2.1

theorem Grammar.Optional.spelled {ts : List Token} {value : Option Expr}
    (derives : Optional ts value) (spelt : Spelt ts) : MarksSpelled (marksOptional value) := by
  cases derives with
  | none => nofun
  | some inner => exact inner.spelled spelt

theorem Grammar.VarDecl.spelled {ts : List Token} {s : Stmt} (derives : VarDecl ts s)
    (spelt : Spelt ts) : MarksSpelled s.marks := by
  cases derives with
  | empty _ isName _ =>
    simp only [spelt_cons] at spelt
    simpa [Stmt.marks, marksOptional, Mark.Spelled] using text_ne_thisName isName spelt.2.1
  | initial _ isName _ value _ =>
    simp only [spelt_cons, spelt_append] at spelt
    obtain ⟨_, name, _, inner, _⟩ := spelt
    simpa [Stmt.marks, marksOptional, Mark.Spelled] using
      ⟨text_ne_thisName isName name, value.spelled inner⟩

theorem Grammar.ExprStmt.spelled {ts : List Token} {s : Stmt} (derives : ExprStmt ts s)
    (spelt : Spelt ts) : MarksSpelled s.marks := by
  obtain ⟨value, _⟩ := derives
  exact value.spelled (spelt_append.mp spelt).1

/-- The marks of a `for` are those of its clauses and its body, and scopes around them. -/
theorem Grammar.desugared_spelled {first : Option Stmt} {condition step : Option Expr} {body : Stmt}
    (start : ∀ s, first = some s → MarksSpelled s.marks)
    (test : MarksSpelled (marksOptional condition)) (rounds : MarksSpelled (marksOptional step))
    (inner : MarksSpelled body.marks) :
    MarksSpelled (desugared first condition step body).marks := by
  cases first <;> cases condition <;> cases step <;>
    simp_all [desugared, Stmt.marks, Stmt.marksEach, Expr.marks, marksOptional, Mark.Spelled]

theorem Grammar.FirstClause.spelled {ts : List Token} {first : Option Stmt}
    (derives : FirstClause ts first) (spelt : Spelt ts) :
    ∀ s, first = some s → MarksSpelled s.marks := by
  cases derives with
  | empty _ => nofun
  | var inner =>
    rintro _ ⟨⟩
    exact inner.spelled spelt
  | expression inner =>
    rintro _ ⟨⟩
    exact inner.spelled spelt

theorem Stmt.marksEach_eq_flatMap (body : List Stmt) : marksEach body = body.flatMap marks := by
  induction body with
  | nil => rfl
  | cons s rest ih => rw [marksEach, ih, List.flatMap_cons]

theorem FunctionDecl.marksEach_eq_flatMap (fs : List FunctionDecl) :
    marksEach fs = fs.flatMap marks := by
  induction fs with
  | nil => rfl
  | cons f rest ih => rw [marksEach, ih, List.flatMap_cons]

theorem Grammar.Named.spelled {ts : List Token} {name : Lexeme} (named : Named ts name)
    (spelt : Spelt ts) : name.text ≠ thisName := by
  obtain ⟨isName⟩ := named
  exact text_ne_thisName isName (spelt_cons.mp spelt).1

theorem Grammar.Parent.spelled {ts : List Token} {parent : Option Superclass}
    (derives : Parent ts parent) (spelt : Spelt ts) (name : Lexeme) :
    MarksSpelled (Superclass.marks name parent) := by
  cases derives with
  | none => nofun
  | some _ isName =>
    simp only [spelt_cons] at spelt
    simpa [Superclass.marks, Mark.Spelled] using text_ne_thisName isName spelt.2.1

theorem Grammar.StmtDerives.spelled {nearest : Bool} {phrase : StmtPhrase} {ts : List Token}
    {s : Stmt} (derives : StmtDerives nearest phrase ts s) (spelt : Spelt ts) :
    MarksSpelled s.marks := by
  induction derives with
  | @classDecl _ name _ _ _ parent _ _ isName above _ _ _ ih =>
    simp only [spelt_cons, spelt_append] at spelt
    obtain ⟨_, own, inherited, _, methods, _⟩ := spelt
    have above : MarksSpelled (Superclass.marks name.toLexeme parent) := above.spelled inherited _
    have inside := marksSpelled_trees FunctionDecl.marks fun m member =>
      (marksSpelled_append.mp (ih m member (methods.mem m member))).2
    simpa [Stmt.marks, Mark.declared, Mark.Spelled, FunctionDecl.marksEach_eq_flatMap] using
      ⟨text_ne_thisName isName own, above, inside⟩
  | funDecl _ _ ih => exact ih (spelt_cons.mp spelt).2
  | varDecl inner => exact inner.spelled spelt
  | statement _ ih | blockStmt _ ih => exact ih spelt
  | function isName _ named listed _ _ _ ih =>
    simp only [spelt_cons, spelt_append] at spelt
    obtain ⟨name, _, params, _, body⟩ := spelt
    have named := marksSpelled_trees (Mark.declared .ofParameter) fun p member => by
      have own := (named p member).spelled (listed.spelt params _ (List.mem_map_of_mem member))
      simpa [Mark.declared, Mark.Spelled] using own
    have inside := ih body
    simp only [Stmt.marks, marksSpelled_cons, marksSpelled_append] at inside
    simpa [Stmt.marks, FunctionDecl.marks, Mark.declared, Mark.Spelled, FunctionDecl.name] using
      ⟨text_ne_thisName isName name, named, inside.2.1⟩
  | exprStmt inner => exact inner.spelled spelt
  | forStmt _ _ clause guarded _ stepped _ _ ih =>
    simp only [spelt_cons, spelt_append] at spelt
    obtain ⟨_, _, first, condition, _, step, _, body⟩ := spelt
    exact desugared_spelled (clause.spelled first) (guarded.spelled condition)
      (stepped.spelled step) (ih body)
  | ifThen _ _ condition _ _ ih | whileStmt _ _ condition _ _ ih =>
    simp only [spelt_cons, spelt_append] at spelt
    obtain ⟨_, _, test, _, body⟩ := spelt
    simpa [Stmt.marks] using ⟨condition.spelled test, ih body⟩
  | ifElse _ _ condition _ _ _ _ _ ih ih' =>
    simp only [spelt_cons, spelt_append] at spelt
    obtain ⟨_, _, test, _, yes, _, no⟩ := spelt
    simpa [Stmt.marks] using ⟨condition.spelled test, ih yes, ih' no⟩
  | printStmt _ value _ =>
    simp only [spelt_cons, spelt_append] at spelt
    exact value.spelled spelt.2.1
  | returnStmt _ value _ =>
    simp only [spelt_cons, spelt_append] at spelt
    simpa [Stmt.marks, Mark.Spelled] using value.spelled spelt.2.1
  | block _ _ _ ih =>
    simp only [spelt_cons, spelt_append] at spelt
    have inside := marksSpelled_trees Stmt.marks fun p member =>
      ih p member (spelt.2.1.mem p member)
    simpa [Stmt.marks, Mark.Spelled, Stmt.marksEach_eq_flatMap] using inside

theorem Grammar.Program.spelled {nearest : Bool} {ts : List Token} {tree : List Stmt}
    (derives : Program nearest ts tree) (spelt : Spelt ts) :
    MarksSpelled (Stmt.marksEach tree) := by
  obtain ⟨each⟩ := derives
  rw [Stmt.marksEach_eq_flatMap]
  exact marksSpelled_trees Stmt.marks fun p member => (each p member).spelled (spelt.mem p member)

/-! Sources. -/

theorem pieces_fit (text : List Char) : ∀ piece ∈ pieces text, ∃ front, piece.Fits front := by
  induction text using pieces_induction with
  | empty => nofun
  | piece c rest more tail covers parts split ih =>
    rw [split]
    exact List.forall_mem_cons.mpr ⟨⟨_, Piece.cut_fits c rest⟩, ih⟩

theorem openItems_spelt {ps : List Piece} (fit : ∀ piece ∈ ps, ∃ front, piece.Fits front)
    (line : Nat) : Spelt ((openItems line ps).filterMap Item.token?) := by
  induction ps generalizing line with
  | nil => exact List.forall_mem_nil _
  | cons piece rest ih =>
    obtain ⟨⟨front, fits⟩, others⟩ := List.forall_mem_cons.mp fit
    rw [openItems, List.filterMap_append, spelt_append]
    refine ⟨?_, ih others _⟩
    cases piece with
    | token kind text => simpa [Piece.item?, Item.token?, Spelt] using fits.1
    | blank _ | comment _ | unexpected _ | unterminated _ => exact List.forall_mem_nil _

/-- A parsed program is derived from well spelled tokens. -/
theorem parseSource_derived {nextId next : ExprId} {source : String} {program : List Stmt}
    (parsed : parseSource nextId source = (.ok program, next)) :
    Grammar.Program true (Cursor.ofTokens (tokens source) nextId).rest
        (Stmt.relabelEach .unnumbered program) ∧
      Spelt (Cursor.ofTokens (tokens source) nextId).rest := by
  obtain ⟨_, parsed⟩ := parseSource_eq_ok.mp parsed
  have clean := congrArg Parsed.errors parsed
  have same : (parseTokens (tokens source) nextId).statements = program :=
    congrArg Parsed.statements parsed
  have derived := parseFrom_sound (Nat.le_refl _) clean
  simp only [parseTokens] at same
  rw [same] at derived
  refine ⟨derived, ?_⟩
  rw [ofTokens_tokens]
  exact openItems_spelt (pieces_fit _) 1

/-- The names in a parsed program are spelled as the language has it. -/
theorem parseSource_spelled {nextId next : ExprId} {source : String} {program : List Stmt}
    (parsed : parseSource nextId source = (.ok program, next)) :
    ∀ mark ∈ Stmt.marksEach program, mark.Spelled := by
  obtain ⟨derived, spelt⟩ := parseSource_derived parsed
  have bare := derived.spelled spelt
  rw [Stmt.marksEach_relabel] at bare
  intro mark member
  exact (Mark.spelled_relabel .unnumbered mark).mp (bare _ (List.mem_map_of_mem member))

end ScopeScript
