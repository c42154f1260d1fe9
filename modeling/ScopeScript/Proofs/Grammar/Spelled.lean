import ScopeScript.Proofs.Grammar.Accepts
import ScopeScript.Proofs.Grammar.Names
import ScopeScript.Proofs.Tree.Nodes

/-! The tokens in a tree. Every node that is read from a source holds the tokens it stands for: a
name is a word, and an operator is the one its sign spells. -/
namespace ScopeScript
open Grammar

def UnaryOp.spelling : UnaryOp → List Char
  | not => Symbol.bang.spelling
  | negate => Symbol.minus.spelling

def InfixOp.spelling : InfixOp → List Char
  | binary .add => Symbol.plus.spelling
  | binary .subtract => Symbol.minus.spelling
  | binary .multiply => Symbol.star.spelling
  | binary .divide => Symbol.slash.spelling
  | binary .equal => Symbol.equalEqual.spelling
  | binary .notEqual => Symbol.bangEqual.spelling
  | binary .greater => Symbol.greater.spelling
  | binary .greaterEqual => Symbol.greaterEqual.spelling
  | binary .less => Symbol.less.spelling
  | binary .lessEqual => Symbol.lessEqual.spelling
  | logical .and => Keyword.kwAnd.word.toList
  | logical .or => Keyword.kwOr.word.toList

theorem Spells.eq_of_symbol {text : List Char} {s : Symbol} (spells : Spells text (.symbol s)) :
    text = s.spelling := by
  cases spells
  rfl

theorem Spells.eq_of_keyword {text : List Char} {k : Keyword} (spells : Spells text (.keyword k)) :
    text = k.word.toList := by
  cases spells
  rfl

theorem Grammar.Sign.spelling {k : Kind} {op : UnaryOp} (sign : Sign k op) {text : List Char}
    (spells : Spells text k) : text = op.spelling := by
  cases sign <;> exact spells.eq_of_symbol

theorem Grammar.Operator.spelling {t : Tier} {k : Kind} {op : InfixOp} (operator : Operator t k op)
    {text : List Char} (spells : Spells text k) : text = op.spelling := by
  cases operator with
  | or | and => exact spells.eq_of_keyword
  | _ => exact spells.eq_of_symbol

/-! Expressions. -/

namespace Expr

/-- The tokens that a node holds are spelled as the node has it. -/
def Spelled : Expr → Prop
  | literal _ _ | group _ _ => True
  | var _ name | assign _ name _ | get _ _ name | set _ _ name _ =>
    Spells name.text.toList .identifier
  | this _ keyword => keyword.text = "this"
  | unary _ op sign _ => sign.text.toList = op.spelling
  | binary _ op sign _ _ => sign.text.toList = (InfixOp.binary op).spelling
  | logical _ op sign _ _ => sign.text.toList = (InfixOp.logical op).spelling
  | call _ _ _ closing => closing.text = ")"

theorem parts_relabel (r : Relabel) (e : Expr) :
    (e.relabel r).parts = e.parts.map (relabel r) := by
  cases e <;> simp [relabel, parts, relabelEach_eq_map]

theorem nodes_relabel (r : Relabel) (e : Expr) :
    (e.relabel r).nodes = e.nodes.map (relabel r) := by
  induction e using parts_induction with
  | node e ih =>
    rw [nodes_eq, nodes_eq e, parts_relabel, List.map_append, List.map_flatMap, List.flatMap_map,
      List.flatMap_def, List.flatMap_def, List.map_congr_left ih]
    rfl

theorem spelled_relabel (r : Relabel) (e : Expr) : (e.relabel r).Spelled ↔ e.Spelled := by
  cases e <;> exact Iff.rfl

/-- A property of all nodes is one of the node itself and of all nodes of its operands. -/
theorem forall_mem_nodes {p : Expr → Prop} {e : Expr} :
    (∀ node ∈ e.nodes, p node) ↔ (∀ part ∈ e.parts, ∀ node ∈ part.nodes, p node) ∧ p e := by
  rw [nodes_eq, List.forall_mem_append, List.forall_mem_flatMap, List.forall_mem_singleton]

end Expr

theorem name_spelled {t : Token} (isName : t.kind = .identifier)
    (spells : Spells t.text.toList t.kind) : Spells t.text.toList .identifier := isName ▸ spells

theorem forall_mem_pair {p : Expr → Prop} {e f : Expr} : (∀ x ∈ [e, f], p x) ↔ p e ∧ p f := by
  rw [List.forall_mem_cons, List.forall_mem_singleton]

/-- The nodes of an expression hold the tokens it was read from. -/
theorem Grammar.Derives.nodes_spelled {n : Phrase} {ts : List Token} {e : Expr}
    (derives : Derives n ts e) (spelt : Spelt ts) : ∀ node ∈ e.nodes, node.Spelled := by
  induction derives with
  | expression _ ih | operation _ ih | operand _ ih | unsigned _ ih | primary _ ih => exact ih spelt
  | assign isName _ _ ih =>
    simp only [spelt_cons] at spelt
    rw [Expr.forall_mem_nodes]
    exact ⟨List.forall_mem_singleton.mpr (ih spelt.2.2), name_spelled isName spelt.1⟩
  | set _ _ isName _ _ ih ih' =>
    simp only [spelt_append, spelt_cons] at spelt
    rw [Expr.forall_mem_nodes]
    refine ⟨forall_mem_pair.mpr ⟨ih spelt.1, ih' spelt.2.2.2.2⟩, name_spelled isName spelt.2.2.1⟩
  | @infixed _ _ _ _ op _ _ _ operator _ ih ih' =>
    simp only [spelt_append, spelt_cons] at spelt
    have spelling := operator.spelling spelt.2.1
    cases op <;> rw [InfixOp.node, Expr.forall_mem_nodes] <;>
      exact ⟨forall_mem_pair.mpr ⟨ih spelt.1, ih' spelt.2.2⟩, spelling⟩
  | signed sign _ ih =>
    rw [spelt_cons] at spelt
    rw [Expr.forall_mem_nodes]
    exact ⟨List.forall_mem_singleton.mpr (ih spelt.2), sign.spelling spelt.1⟩
  | call _ _ each listed _ isClosing ih ih' =>
    simp only [spelt_append, spelt_cons] at spelt
    obtain ⟨callee, _, arguments, closing, _⟩ := spelt
    rw [Expr.forall_mem_nodes]
    refine ⟨List.forall_mem_cons.mpr ⟨ih callee, List.forall_mem_map.mpr ?_⟩, ?_⟩
    · intro part isPart
      exact ih' part isPart (listed.spelt arguments _ (List.mem_map_of_mem isPart))
    · rw [isClosing] at closing
      exact String.toList_inj.mp closing.eq_of_symbol
  | get _ _ isName ih =>
    simp only [spelt_append, spelt_cons] at spelt
    rw [Expr.forall_mem_nodes]
    exact ⟨List.forall_mem_singleton.mpr (ih spelt.1), name_spelled isName spelt.2.2.1⟩
  | literal _ => exact List.forall_mem_singleton.mpr trivial
  | this isThis =>
    exact List.forall_mem_singleton.mpr (text_eq_thisName isThis (spelt_cons.mp spelt).1)
  | var isName => exact List.forall_mem_singleton.mpr (name_spelled isName (spelt_cons.mp spelt).1)
  | group _ _ _ ih =>
    simp only [spelt_cons, spelt_append] at spelt
    rw [Expr.forall_mem_nodes]
    exact ⟨List.forall_mem_singleton.mpr (ih spelt.2.1), trivial⟩

theorem parseExpression_spelled {source : String} {nextId : ExprId} {e : Expr}
    (parsed : parseExpression (tokens source) nextId = .ok e) : ∀ node ∈ e.nodes, node.Spelled := by
  have derives := parseExpression_eq_ok_iff.mp ⟨e, parsed, rfl⟩
  have spelt : Spelt (Cursor.ofTokens (tokens source) nextId).rest := by
    rw [ofTokens_tokens]
    exact openItems_spelt (pieces_fit _) 1
  have bare := derives.nodes_spelled spelt
  rw [Expr.nodes_relabel] at bare
  intro node member
  exact (node.spelled_relabel _).mp (bare _ (List.mem_map_of_mem member))

/-! Statements. The expressions in a statement are those of its phrases. -/

mutual

theorem Stmt.exprs_relabel (r : Relabel) : ∀ s : Stmt,
    (s.relabel r).exprs = s.exprs.map (Expr.relabel r)
  | .expression _ | .print _ => rfl
  | .var _ initial => by cases initial <;> rfl
  | .block body => Stmt.exprsEach_relabel r body
  | .ifThen _ body | .whileLoop _ body => by
    simp only [Stmt.relabel, Stmt.exprs, List.map_cons, body.exprs_relabel r]
  | .ifElse _ yes no => by
    simp only [Stmt.relabel, Stmt.exprs, List.map_cons, List.map_append, yes.exprs_relabel r,
      no.exprs_relabel r]
  | .function declaration => declaration.exprs_relabel r
  | .returns _ value => by cases value <;> rfl
  | .classDecl _ superclass methods => by
    simp only [Stmt.relabel, Stmt.exprs, List.map_append, FunctionDecl.exprsEach_relabel r methods]
    cases superclass <;> rfl

theorem Stmt.exprsEach_relabel (r : Relabel) : ∀ body : List Stmt,
    Stmt.exprsEach (Stmt.relabelEach r body) = (Stmt.exprsEach body).map (Expr.relabel r)
  | [] => rfl
  | s :: rest => by
    simp only [Stmt.relabelEach, Stmt.exprsEach, List.map_append, s.exprs_relabel r,
      Stmt.exprsEach_relabel r rest]

theorem FunctionDecl.exprs_relabel (r : Relabel) : ∀ f : FunctionDecl,
    (f.relabel r).exprs = f.exprs.map (Expr.relabel r)
  | .mk _ _ body => Stmt.exprsEach_relabel r body

theorem FunctionDecl.exprsEach_relabel (r : Relabel) : ∀ fs : List FunctionDecl,
    FunctionDecl.exprsEach (FunctionDecl.relabelEach r fs) =
      (FunctionDecl.exprsEach fs).map (Expr.relabel r)
  | [] => rfl
  | f :: rest => by
    simp only [FunctionDecl.relabelEach, FunctionDecl.exprsEach, List.map_append,
      f.exprs_relabel r, FunctionDecl.exprsEach_relabel r rest]

end

theorem programNodes_relabel (r : Relabel) (program : List Stmt) :
    programNodes (Stmt.relabelEach r program) = (programNodes program).map (Expr.relabel r) := by
  simp only [programNodes, Stmt.exprsEach_relabel, List.map_flatMap, List.flatMap_map,
    Expr.nodes_relabel]

/-- Expressions whose nodes all hold the tokens they stand for. -/
def ExprsSpelled (es : List Expr) : Prop := ∀ e ∈ es, ∀ node ∈ e.nodes, node.Spelled

@[simp] theorem exprsSpelled_nil : ExprsSpelled [] := nofun

@[simp] theorem exprsSpelled_cons {e : Expr} {es : List Expr} :
    ExprsSpelled (e :: es) ↔ (∀ node ∈ e.nodes, node.Spelled) ∧ ExprsSpelled es :=
  List.forall_mem_cons

@[simp] theorem exprsSpelled_append {es more : List Expr} :
    ExprsSpelled (es ++ more) ↔ ExprsSpelled es ∧ ExprsSpelled more := List.forall_mem_append

/-- The expressions of parts that are read one by one. -/
theorem exprsSpelled_trees {α : Type} {parts : List (Passage α)} (exprs : α → List Expr)
    (each : ∀ p ∈ parts, ExprsSpelled (exprs p.tree)) :
    ExprsSpelled ((parts.map Passage.tree).flatMap exprs) := by
  intro e member
  obtain ⟨tree, isTree, member⟩ := List.mem_flatMap.mp member
  obtain ⟨part, isPart, rfl⟩ := List.mem_map.mp isTree
  exact each part isPart e member

namespace Grammar
variable {ts : List Token}

theorem Optional.exprs_spelled {value : Option Expr} (derives : Optional ts value)
    (spelt : Spelt ts) : ExprsSpelled value.toList := by
  cases derives with
  | none => exact exprsSpelled_nil
  | some inner => exact List.forall_mem_singleton.mpr (inner.nodes_spelled spelt)

theorem VarDecl.exprs_spelled {s : Stmt} (derives : VarDecl ts s) (spelt : Spelt ts) :
    ExprsSpelled s.exprs := by
  cases derives with
  | empty _ _ _ => exact exprsSpelled_nil
  | initial _ _ _ value _ =>
    simp only [spelt_cons, spelt_append] at spelt
    exact List.forall_mem_singleton.mpr (value.nodes_spelled spelt.2.2.2.1)

theorem ExprStmt.exprs_spelled {s : Stmt} (derives : ExprStmt ts s) (spelt : Spelt ts) :
    ExprsSpelled s.exprs := by
  obtain ⟨value, _⟩ := derives
  exact List.forall_mem_singleton.mpr (value.nodes_spelled (spelt_append.mp spelt).1)

theorem FirstClause.exprs_spelled {first : Option Stmt} (derives : FirstClause ts first)
    (spelt : Spelt ts) : ∀ s, first = some s → ExprsSpelled s.exprs := by
  cases derives with
  | empty _ => nofun
  | var inner =>
    rintro _ ⟨⟩
    exact inner.exprs_spelled spelt
  | expression inner =>
    rintro _ ⟨⟩
    exact inner.exprs_spelled spelt

theorem Parent.exprs_spelled {parent : Option Superclass} (derives : Parent ts parent)
    (spelt : Spelt ts) : ExprsSpelled (parent.map Superclass.expr).toList := by
  cases derives with
  | none => exact exprsSpelled_nil
  | some _ isName =>
    simp only [spelt_cons] at spelt
    exact List.forall_mem_singleton.mpr
      (List.forall_mem_singleton.mpr (name_spelled isName spelt.2.1))

/-- The expressions of a `for` are those of its clauses and its body; a condition that is missing is
a literal. -/
theorem desugared_exprs_spelled {first : Option Stmt} {condition step : Option Expr} {body : Stmt}
    (start : ∀ s, first = some s → ExprsSpelled s.exprs) (test : ExprsSpelled condition.toList)
    (rounds : ExprsSpelled step.toList) (inner : ExprsSpelled body.exprs) :
    ExprsSpelled (desugared first condition step body).exprs := by
  have always : ∀ node ∈ (Expr.literal 0 (.boolean true)).nodes, node.Spelled :=
    List.forall_mem_singleton.mpr trivial
  cases first <;> cases condition <;> cases step <;>
    simp_all [desugared, Stmt.exprs, Stmt.exprsEach]

theorem StmtDerives.exprs_spelled {nearest : Bool} {phrase : StmtPhrase} {s : Stmt}
    (derives : StmtDerives nearest phrase ts s) (spelt : Spelt ts) : ExprsSpelled s.exprs := by
  induction derives with
  | classDecl _ _ above _ _ _ ih =>
    simp only [spelt_cons, spelt_append] at spelt
    obtain ⟨_, _, inherited, _, methods, _⟩ := spelt
    have inside := exprsSpelled_trees FunctionDecl.exprs fun m member =>
      ih m member (methods.mem m member)
    rw [Stmt.exprs, FunctionDecl.exprsEach_eq_flatMap, exprsSpelled_append]
    exact ⟨above.exprs_spelled inherited, inside⟩
  | funDecl _ _ ih => exact ih (spelt_cons.mp spelt).2
  | varDecl inner => exact inner.exprs_spelled spelt
  | statement _ ih | blockStmt _ ih => exact ih spelt
  | function _ _ _ _ _ _ _ ih =>
    simp only [spelt_cons, spelt_append] at spelt
    exact ih spelt.2.2.2.2
  | exprStmt inner => exact inner.exprs_spelled spelt
  | forStmt _ _ clause guarded _ stepped _ _ ih =>
    simp only [spelt_cons, spelt_append] at spelt
    obtain ⟨_, _, first, condition, _, step, _, body⟩ := spelt
    exact desugared_exprs_spelled (clause.exprs_spelled first) (guarded.exprs_spelled condition)
      (stepped.exprs_spelled step) (ih body)
  | ifThen _ _ condition _ _ ih | whileStmt _ _ condition _ _ ih =>
    simp only [spelt_cons, spelt_append] at spelt
    obtain ⟨_, _, test, _, body⟩ := spelt
    exact exprsSpelled_cons.mpr ⟨condition.nodes_spelled test, ih body⟩
  | ifElse _ _ condition _ _ _ _ _ ih ih' =>
    simp only [spelt_cons, spelt_append] at spelt
    obtain ⟨_, _, test, _, yes, _, no⟩ := spelt
    exact exprsSpelled_cons.mpr
      ⟨condition.nodes_spelled test, exprsSpelled_append.mpr ⟨ih yes, ih' no⟩⟩
  | printStmt _ value _ =>
    simp only [spelt_cons, spelt_append] at spelt
    exact List.forall_mem_singleton.mpr (value.nodes_spelled spelt.2.1)
  | returnStmt _ value _ =>
    simp only [spelt_cons, spelt_append] at spelt
    exact value.exprs_spelled spelt.2.1
  | block _ _ _ ih =>
    simp only [spelt_cons, spelt_append] at spelt
    rw [Stmt.exprs, Stmt.exprsEach_eq_flatMap]
    exact exprsSpelled_trees Stmt.exprs fun p member => ih p member (spelt.2.1.mem p member)

theorem Program.nodes_spelled {nearest : Bool} {tree : List Stmt}
    (derives : Program nearest ts tree) (spelt : Spelt ts) :
    ∀ node ∈ programNodes tree, node.Spelled := by
  obtain ⟨each⟩ := derives
  have exprs := exprsSpelled_trees Stmt.exprs fun p member =>
    (each p member).exprs_spelled (spelt.mem p member)
  rw [← Stmt.exprsEach_eq_flatMap] at exprs
  exact List.forall_mem_flatMap.mpr exprs

end Grammar

/-- All nodes of a parsed program hold the tokens they stand for. -/
theorem parseSource_nodes_spelled {nextId next : ExprId} {source : String} {program : List Stmt}
    (parsed : parseSource nextId source = (.ok program, next)) :
    ∀ node ∈ programNodes program, node.Spelled := by
  obtain ⟨derived, spelt⟩ := parseSource_derived parsed
  have bare := derived.nodes_spelled spelt
  rw [programNodes_relabel] at bare
  intro node member
  exact (node.spelled_relabel _).mp (bare _ (List.mem_map_of_mem member))

end ScopeScript
