import ScopeScript.Proofs.Grammar.Names
import ScopeScript.Proofs.Scope.Walk
import ScopeScript.Proofs.Tree.Nodes

/-! The distances found for a program are those that can be told from its text. -/
namespace ScopeScript

/-! The uses among the marks of a tree are the nodes that use a name, in the same order. -/

/-- The number of a node that uses a name, and the name. -/
def Expr.use? : Expr → Option (ExprId × String)
  | var id name | assign id name _ => some (id, name.text)
  | this id _ => some (id, thisName)
  | _ => none

mutual

theorem Expr.uses_marks : ∀ e : Expr, e.marks.filterMap Mark.use? = e.nodes.filterMap Expr.use?
  | .literal _ _ | .var _ _ | .this _ _ => rfl
  | .group _ inner => by
    simp [Expr.marks, Expr.nodes, Expr.use?, inner.uses_marks]
  | .assign _ _ value => by
    simp [Expr.marks, Expr.nodes, Expr.use?, Mark.use?, value.uses_marks]
  | .unary _ _ _ operand => by
    simp [Expr.marks, Expr.nodes, Expr.use?, operand.uses_marks]
  | .binary _ _ _ left right | .logical _ _ _ left right | .set _ left _ right => by
    simp [Expr.marks, Expr.nodes, Expr.use?, left.uses_marks, right.uses_marks]
  | .call _ callee arguments _ => by
    simp [Expr.marks, Expr.nodes, Expr.use?, callee.uses_marks, Expr.uses_marksEach arguments]
  | .get _ object _ => by
    simp [Expr.marks, Expr.nodes, Expr.use?, object.uses_marks]

theorem Expr.uses_marksEach : ∀ es : List Expr,
    (Expr.marksEach es).filterMap Mark.use? = (Expr.nodesEach es).filterMap Expr.use?
  | [] => rfl
  | e :: rest => by
    simp [Expr.marksEach, Expr.nodesEach, e.uses_marks, Expr.uses_marksEach rest]

end

theorem uses_marksOptional (value : Option Expr) : (marksOptional value).filterMap Mark.use? =
    (value.toList.flatMap Expr.nodes).filterMap Expr.use? := by
  cases value with
  | none => rfl
  | some e => simpa [marksOptional] using e.uses_marks

theorem Superclass.uses_marks (name : Lexeme) (superclass : Option Superclass) :
    (Superclass.marks name superclass).filterMap Mark.use? =
      ((superclass.map Superclass.expr).toList.flatMap Expr.nodes).filterMap Expr.use? := by
  cases superclass <;> rfl

/-- Nothing is used in a declaration by itself. -/
theorem Mark.uses_declared (kind : DeclarationKind) (name : Lexeme) :
    (declared kind name).filterMap use? = [] := rfl

mutual

theorem Stmt.uses_marks : ∀ s : Stmt,
    s.marks.filterMap Mark.use? = (s.exprs.flatMap Expr.nodes).filterMap Expr.use?
  | .expression value | .print value => by simpa [Stmt.marks, Stmt.exprs] using value.uses_marks
  | .var _ initial => by
    simp [Stmt.marks, Stmt.exprs, List.filterMap_cons, Mark.use?, uses_marksOptional]
  | .block body => by
    simp [Stmt.marks, Stmt.exprs, List.filterMap_cons, Mark.use?, Stmt.uses_marksEach body]
  | .ifThen condition body | .whileLoop condition body => by
    simp [Stmt.marks, Stmt.exprs, condition.uses_marks, body.uses_marks]
  | .ifElse condition yes no => by
    simp [Stmt.marks, Stmt.exprs, condition.uses_marks, yes.uses_marks, no.uses_marks]
  | .function declaration => by
    simp [Stmt.marks, Stmt.exprs, Mark.uses_declared, declaration.uses_marks]
  | .returns _ value => by
    simp [Stmt.marks, Stmt.exprs, List.filterMap_cons, Mark.use?, uses_marksOptional]
  | .classDecl name superclass methods => by
    simp [Stmt.marks, Stmt.exprs, List.filterMap_cons, Mark.use?, Mark.uses_declared,
      Superclass.uses_marks, FunctionDecl.uses_marksEach methods]

theorem Stmt.uses_marksEach : ∀ body : List Stmt,
    (Stmt.marksEach body).filterMap Mark.use? =
      ((Stmt.exprsEach body).flatMap Expr.nodes).filterMap Expr.use?
  | [] => rfl
  | s :: rest => by simp [Stmt.marksEach, Stmt.exprsEach, s.uses_marks, Stmt.uses_marksEach rest]

theorem FunctionDecl.uses_marks : ∀ f : FunctionDecl,
    f.marks.filterMap Mark.use? = (f.exprs.flatMap Expr.nodes).filterMap Expr.use?
  | .mk _ params body => by
    have declared : (params.flatMap (Mark.declared .ofParameter)).filterMap Mark.use? = [] := by
      simp [List.filterMap_flatMap, Mark.uses_declared]
    simp [FunctionDecl.marks, FunctionDecl.exprs, List.filterMap_cons, Mark.use?, declared,
      Stmt.uses_marksEach body]

theorem FunctionDecl.uses_marksEach : ∀ fs : List FunctionDecl,
    (FunctionDecl.marksEach fs).filterMap Mark.use? =
      ((FunctionDecl.exprsEach fs).flatMap Expr.nodes).filterMap Expr.use?
  | [] => rfl
  | f :: rest => by
    simp [FunctionDecl.marksEach, FunctionDecl.exprsEach, f.uses_marks,
      FunctionDecl.uses_marksEach rest]

end

/-- A node that uses a name is a mark of the text, and the other way round. -/
theorem mem_uses_marks {program : List Stmt} {use : ExprId × String} :
    (∃ mark ∈ Stmt.marksEach program, mark.use? = some use) ↔
      ∃ node ∈ programNodes program, node.use? = some use := by
  have same := Stmt.uses_marksEach program
  rw [← List.mem_filterMap, same, List.mem_filterMap, programNodes]

theorem Expr.id_of_use? {e : Expr} {id : ExprId} {x : String} (use : e.use? = some (id, x)) :
    e.id = id := by
  cases e <;> cases use <;> rfl

/-- Uses of names have different numbers if all nodes have. -/
theorem uses_nodup {program : List Stmt} (nodup : (Stmt.idsEach program).Nodup) :
    (((Stmt.marksEach program).filterMap Mark.use?).map Prod.fst).Nodup := by
  rw [← map_id_programNodes, List.Nodup, List.pairwise_map] at nodup
  rw [Stmt.uses_marksEach, List.Nodup, List.pairwise_map]
  refine nodup.filterMap Expr.use? fun first second apart use here use' there => ?_
  rwa [Expr.id_of_use? here, Expr.id_of_use? there] at apart

/-! The findings of a text by the places of its uses. -/

section Places
variable {known : List String} {before text : List Mark} {findings : List Finding}

/-- A distance is found at a use, as that of its nearest declaration. -/
theorem Walk.found (walk : Walk known before text findings) (id : ExprId) (d : Nat) :
    .found id d ∈ findings ↔ ∃ front mark back x, text = front ++ mark :: back ∧
      mark.use? = some (id, x) ∧ NearestDeclaration (before ++ front) x d := by
  induction walk with
  | done before => simp
  | @step before rest mark findings more here further ih =>
    rw [List.mem_append, here.found, ih]
    constructor
    · rintro (⟨x, use, nearest⟩ | ⟨front, other, back, x, rfl, use, nearest⟩)
      · exact ⟨[], mark, rest, x, rfl, use, by simpa using nearest⟩
      · exact ⟨mark :: front, other, back, x, rfl, use, by simpa using nearest⟩
    · rintro ⟨front, other, back, x, split, use, nearest⟩
      cases front with
      | nil =>
        cases split
        exact .inl ⟨x, use, by simpa using nearest⟩
      | cons first front =>
        cases split
        exact .inr ⟨front, other, back, x, rfl, use, by simpa using nearest⟩

/-- A number stands at one place only, if no two uses have the same one. -/
theorem split_unique (nodup : ((text.filterMap Mark.use?).map Prod.fst).Nodup)
    {front back front' back' : List Mark} {mark mark' : Mark} {id : ExprId} {x x' : String}
    (split : text = front ++ mark :: back) (split' : text = front' ++ mark' :: back')
    (use : mark.use? = some (id, x)) (use' : mark'.use? = some (id, x')) :
    front = front' ∧ mark = mark' := by
  -- were they apart, the number would stand twice in the text
  have apart {front between back : List Mark} {mark mark' : Mark} {x x' : String}
      (use : mark.use? = some (id, x)) (use' : mark'.use? = some (id, x'))
      (split : text = front ++ mark :: (between ++ mark' :: back)) : False := by
    rw [split, List.filterMap_append, List.filterMap_cons_some use, List.map_append,
      List.map_cons] at nodup
    refine (List.nodup_cons.mp (List.nodup_append.mp nodup).2.1).1 ?_
    simp [List.filterMap_cons_some use']
  have meet := split.symm.trans split'
  rcases List.append_eq_append_iff.mp meet with ⟨between, same, rest⟩ | ⟨between, same, rest⟩
  · cases between with
    | nil =>
      cases rest
      exact ⟨by rw [same, List.append_nil], rfl⟩
    | cons first between =>
      cases rest
      exact (apart use use' split).elim
  · cases between with
    | nil =>
      cases rest
      exact ⟨by rw [same, List.append_nil], rfl⟩
    | cons first between =>
      cases rest
      exact (apart use' use split').elim

theorem DeclaredLocally.nearest {x : String} {d : Nat} (declared : DeclaredLocally before x d) :
    ∃ n, NearestDeclaration before x n := by
  induction d using Nat.strongRecOn with
  | ind d ih =>
    by_cases nearer : ∃ n < d, DeclaredLocally before x n
    · obtain ⟨n, below, declared⟩ := nearer
      exact ih n below declared
    · exact ⟨d, declared, fun n below declared => nearer ⟨n, below, declared⟩⟩

end Places

theorem lookup_eq_some_iff_mem {entries : List (ExprId × Nat)}
    (nodup : (entries.map Prod.fst).Nodup) {id : ExprId} {d : Nat} :
    entries.lookup id = some d ↔ (id, d) ∈ entries := by
  induction entries with
  | nil => simp
  | cons entry rest ih =>
    obtain ⟨key, distance⟩ := entry
    obtain ⟨unique, others⟩ := List.nodup_cons.mp nodup
    have rest_iff := ih others
    rw [List.lookup_cons, List.mem_cons, ← rest_iff]
    by_cases same : id = key
    · subst same
      have absent : rest.lookup id ≠ some d := fun found =>
        unique (List.mem_map.mpr ⟨_, rest_iff.mp found, rfl⟩)
      simp [absent, eq_comm]
    · have other : (id == key) = false := by simpa using same
      simp [other, same]

/-- What is noted for a program are its findings. -/
theorem get?_note_iff {known : List String} {program : List Stmt} {entries : List (ExprId × Nat)}
    (resolved : resolve known program = .ok entries) (nodup : (Stmt.idsEach program).Nodup)
    {id : ExprId} {d : Nat} :
    (Distances.note {} entries).get? id = some d ↔
      .found id d ∈ programFindings known program := by
  have keys := nodup.sublist (resolve_within resolved)
  have fresh : (Distances.note {} entries).get? id = entries.lookup id := by
    rw [Distances.get?_note {} keys id]
    exact Option.or_none
  rw [fresh, lookup_eq_some_iff_mem keys, ← (resolve_eq_ok.mp resolved).2, List.mem_filterMap]
  constructor
  · rintro ⟨finding, member, entry⟩
    cases finding <;> cases entry
    exact member
  · exact fun member => ⟨_, member, rfl⟩

/-- The distances of a program are the lexical ones. For each use of a name in a program that is
parsed and passes static scoping, the distance noted is the number of scopes between the use and the
innermost local scope that has a complete declaration of the name in the text before it, and none is
noted if there is no such scope. Nothing is noted for other nodes. -/
theorem distances_are_lexical {nextId next : ExprId} {source : String} {program : List Stmt}
    (parsed : parseSource nextId source = (.ok program, next)) {known : List String}
    {entries : List (ExprId × Nat)} (resolved : resolve known program = .ok entries) :
    let noted := Distances.note {} entries
    (∀ node ∈ programNodes program, ∀ x, node.use? = some (node.id, x) →
      (∃ before mark after, Stmt.marksEach program = before ++ mark :: after ∧
        mark.use? = some (node.id, x)) ∧
      ∀ before mark after, Stmt.marksEach program = before ++ mark :: after →
        mark.use? = some (node.id, x) →
        (∀ d, noted.get? node.id = some d ↔ NearestDeclaration before x d) ∧
        (noted.get? node.id = none ↔ ∀ d, ¬DeclaredLocally before x d)) ∧
    ∀ id, noted.get? id ≠ none → ∃ node ∈ programNodes program, ∃ x, node.use? = some (id, x) := by
  intro noted
  obtain ⟨drawn, ranked⟩ := parseSource_drawn parsed
  have walk := programFindings_walk known ranked (parseSource_spelled parsed)
  have numbers := uses_nodup drawn.nodup
  have told (id : ExprId) (d : Nat) := (get?_note_iff resolved drawn.nodup).trans (walk.found id d)
  constructor
  · intro node member x use
    obtain ⟨mark, isMark, same⟩ := mem_uses_marks.mpr ⟨node, member, use⟩
    obtain ⟨before, after, split⟩ := List.append_of_mem isMark
    refine ⟨⟨before, mark, after, split, same⟩, fun before mark after split use => ?_⟩
    have noted_iff (d : Nat) : noted.get? node.id = some d ↔ NearestDeclaration before x d := by
      rw [told]
      constructor
      · rintro ⟨front, other, back, x', split', use', nearest⟩
        obtain ⟨rfl, rfl⟩ := split_unique numbers split split' use use'
        cases use.symm.trans use'
        exact nearest
      · exact fun nearest => ⟨before, mark, after, x, split, use, nearest⟩
    refine ⟨noted_iff, ?_⟩
    constructor
    · intro none d declared
      obtain ⟨n, nearest⟩ := declared.nearest
      rw [(noted_iff n).mpr nearest] at none
      contradiction
    · intro absent
      rw [Option.eq_none_iff_forall_ne_some]
      exact fun d found => absent d ((noted_iff d).mp found).1
  · intro id found
    obtain ⟨d, found⟩ := Option.ne_none_iff_exists'.mp found
    obtain ⟨before, mark, after, x, split, use, _⟩ := (told id d).mp found
    have isMark : mark ∈ Stmt.marksEach program := by simp [split]
    obtain ⟨node, member, use⟩ := mem_uses_marks.mp ⟨mark, isMark, use⟩
    exact ⟨node, member, x, use⟩

/-- In the initial value of a variable its name means the one further out. -/
theorem shadowed_variable_is_nearest :
    ∃ program next before mark after,
      parseSource 0 "{var a;{var a=a;}}" = (.ok program, next) ∧
      resolve ["clock"] program = .ok [(0, 1)] ∧
      Stmt.marksEach program = before ++ mark :: after ∧ mark.use? = some (0, "a") ∧
      NearestDeclaration before "a" 1 := by
  obtain ⟨result, parsed⟩ : ∃ result, parseSource 0 "{var a;{var a=a;}}" = result := ⟨_, rfl⟩
  have read : result.1.toOption.map (fun program =>
      ((programNodes program).filterMap Expr.use?, (resolve ["clock"] program).toOption)) =
        some ([(0, "a")], some [(0, 1)]) := by
    rw [← parsed]
    decide +kernel
  obtain ⟨found, next⟩ := result
  cases found with
  | error _ => contradiction
  | ok program =>
    obtain ⟨uses, entries⟩ := Prod.mk.inj (Option.some.inj read)
    have resolved : resolve ["clock"] program = .ok [(0, 1)] := by
      generalize resolve ["clock"] program = resolution at entries ⊢
      cases resolution <;> cases entries
      rfl
    have member : (0, "a") ∈ (programNodes program).filterMap Expr.use? := by simp [uses]
    obtain ⟨node, isNode, use⟩ := List.mem_filterMap.mp member
    have number : node.id = 0 := Expr.id_of_use? use
    have told := (distances_are_lexical parsed resolved).1 node isNode "a" (number ▸ use)
    rw [number] at told
    obtain ⟨⟨before, mark, after, split, same⟩, exact⟩ := told
    have nearest := ((exact before mark after split same).1 1).mp (by decide +kernel)
    exact ⟨program, next, before, mark, after, parsed, resolved, split, same, nearest⟩

end ScopeScript
