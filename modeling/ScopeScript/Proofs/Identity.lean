import ScopeScript.Proofs.Parse.Rising
import ScopeScript.Proofs.Scope.Uses
import ScopeScript.Proofs.Simulation.Session

/-! The identity of expression nodes. Numbers are handed out once in the life of a session, whether
an input fails or not, so a number tells apart all nodes of all trees, and distances that are noted
for the nodes of one tree never meet those of another. -/
namespace ScopeScript

def Input.source : Input → String
  | .run _ source | .parse source => source

namespace Session

/-- The tree that an input is parsed to, if it has no errors. -/
def tree? (s : Session) (input : Input) : Option (List Stmt) := (s.parse input.source).1.toOption

/-- The trees of all inputs of a history, in order. -/
def trees (s : Session) : List Input → List (List Stmt)
  | [] => []
  | input :: rest => (s.tree? input).toList ++ (s.answer input).2.trees rest

/-- Parsing alone decides how many numbers an input uses up. -/
theorem answer_nextId (s : Session) (input : Input) :
    (s.answer input).2.nextId = (parseSource s.nextId input.source).2 := by
  have checked (source : String) : (checkSource s.machine.globalNames s.nextId source).2 =
      (parseSource s.nextId source).2 := by
    unfold checkSource
    rcases parseSource s.nextId source with ⟨errors | program, next⟩
    · rfl
    · dsimp only
      cases resolve s.machine.globalNames program <;> rfl
  cases input with
  | parse source => rfl
  | run fuel source =>
    rw [answer_run, Input.source, ← checked]
    unfold Session.run Session.check
    rcases checkSource s.machine.globalNames s.nextId source with ⟨errors | found, next⟩
    · rfl
    · dsimp only
      cases interpret fuel found.program (s.machine.note found.entries) <;> rfl

theorem tree?_eq_some {s : Session} {input : Input} {program : List Stmt}
    (tree : s.tree? input = some program) :
    parseSource s.nextId input.source = (.ok program, (s.answer input).2.nextId) := by
  rw [answer_nextId]
  unfold tree? Session.parse at tree
  generalize parseSource s.nextId input.source = found at tree ⊢
  obtain ⟨errors | found, next⟩ := found
  · contradiction
  · cases tree
    rfl

/-- The nodes of one tree have the numbers that its input used up, each its own. -/
theorem tree?_drawn {s : Session} {input : Input} {program : List Stmt}
    (tree : s.tree? input = some program) :
    Drawn s.nextId (s.answer input).2.nextId ((programNodes program).map Expr.id) := by
  rw [map_id_programNodes]
  exact (parseSource_drawn (tree?_eq_some tree)).1

/-- So have the nodes of all trees of a history. -/
theorem trees_drawn (s : Session) (inputs : List Input) :
    Drawn s.nextId (s.after inputs).nextId
      (((s.trees inputs).flatMap programNodes).map Expr.id) := by
  induction inputs generalizing s with
  | nil => exact .nil _
  | cons input rest ih =>
    rw [trees, List.flatMap_append, List.map_append]
    refine Drawn.append ?_ (ih (s.answer input).2)
    cases tree : s.tree? input with
    | none =>
      -- an input that fails uses up numbers all the same
      refine ⟨?_, .nil, nofun⟩
      rw [answer_nextId]
      exact parseSource_nextId s.nextId input.source
    | some program =>
      rw [Option.toList_some, List.flatMap_singleton]
      exact tree?_drawn tree

theorem tree?_ordered {s : Session} {input : Input} {program : List Stmt}
    (tree : s.tree? input = some program) : ∀ node ∈ programNodes program, node.Ordered := by
  obtain ⟨_, parsed⟩ := parseSource_eq_ok.mp (tree?_eq_some tree)
  have statements := congrArg Parsed.statements parsed
  dsimp only [parseTokens] at statements
  rw [← statements]
  exact parseFrom_ordered _ _

/-- Nothing is noted yet for the nodes of a tree when its distances are. -/
theorem unnoted {s : Session} {input : Input} {program : List Stmt} {globals : List String}
    {entries : List (ExprId × Nat)}
    (unused : ∀ id, s.nextId ≤ id → s.machine.distances.get? id = none)
    (tree : s.tree? input = some program) (resolved : resolve globals program = .ok entries) :
    ∀ entry ∈ entries, s.machine.distances.get? entry.1 = none := by
  intro entry member
  have drawn := (parseSource_drawn (tree?_eq_some tree)).1
  have inside := (resolve_within resolved).subset (List.mem_map_of_mem member)
  exact unused entry.1 (drawn.range entry.1 inside).1

theorem noted_kept {s : Session} {input : Input} {program : List Stmt} {globals : List String}
    {entries : List (ExprId × Nat)}
    (unused : ∀ id, s.nextId ≤ id → s.machine.distances.get? id = none)
    (tree : s.tree? input = some program) (resolved : resolve globals program = .ok entries)
    {id : ExprId} {distance : Nat} (noted : s.machine.distances.get? id = some distance) :
    (s.machine.note entries).distances.get? id = some distance := by
  have drawn := (parseSource_drawn (tree?_eq_some tree)).1
  have earlier : id < s.nextId := by
    refine Nat.lt_of_not_le fun above => ?_
    rw [unused id above] at noted
    contradiction
  rw [Machine.note, Distances.note_of_drawn drawn (resolve_within resolved) (.inl earlier)]
  exact noted

end Session

/-- Numbers tell expression nodes apart. Over any history no two nodes of the trees that its inputs
are parsed to have the same number. An input behind any history numbers its nodes from the count
before it up to the count after it, operands below the node they belong to and from left to right;
distances are found for the numbers of its uses of names, for which nothing was noted before, so
noting them keeps everything that earlier inputs noted. -/
theorem numbers_identify_nodes (sink : Sink) (clock : Clock) (inputs : List Input) :
    ((((Session.start sink clock).trees inputs).flatMap programNodes).map Expr.id).Nodup ∧
    ∀ (input : Input) (program : List Stmt),
      let before := (Session.start sink clock).after inputs
      let after := (before.answer input).2
      before.tree? input = some program →
      (∀ node ∈ programNodes program,
        before.nextId ≤ node.id ∧ node.id < after.nextId ∧ node.Ordered) ∧
      ∀ (globals : List String) (entries : List (ExprId × Nat)),
        resolve globals program = .ok entries →
        (∀ entry ∈ entries, Expr.Uses (programNodes program) entry.1 ∧
          before.machine.distances.get? entry.1 = none) ∧
        ∀ id distance, before.machine.distances.get? id = some distance →
          (before.machine.note entries).distances.get? id = some distance := by
  refine ⟨((Session.start sink clock).trees_drawn inputs).nodup, ?_⟩
  intro input program before after tree
  have unused := ((Session.start_mirrors sink clock).after inputs).unused
  constructor
  · intro node member
    have range := (Session.tree?_drawn tree).range node.id (List.mem_map_of_mem member)
    exact ⟨range.1, range.2, Session.tree?_ordered tree node member⟩
  · intro globals entries resolved
    constructor
    · intro entry member
      exact ⟨resolve_uses resolved entry member, Session.unnoted unused tree resolved entry member⟩
    · intro id distance noted
      exact Session.noted_kept unused tree resolved noted

/-- An input fails behind two nodes. Then comes an assignment whose target gives up its number. -/
theorem assignment_numbered_behind_failed_input :
    let before := (Session.start {} ⟨fun _ => 0, 0⟩).after [.parse "a.b=;"]
    ∃ program, before.tree? (.parse "{var x;x=nil;}") = some program ∧
      before.nextId = 2 ∧ (programNodes program).map Expr.id = [3, 4] ∧
      resolve [] program = .ok [(4, 0)] ∧ Expr.Uses (programNodes program) 4 ∧
      before.machine.distances.get? 4 = none := by
  intro before
  -- trees hold floating-point numbers and cannot be compared, what is read off them can
  have outcome : (before.tree? (.parse "{var x;x=nil;}")).map (fun program =>
      ((programNodes program).map Expr.id, (resolve [] program).toOption)) =
      some ([3, 4], some [(4, 0)]) := by decide +kernel
  obtain ⟨program, tree, outcome⟩ := Option.map_eq_some_iff.mp outcome
  obtain ⟨numbers, resolved⟩ := Prod.mk.inj outcome
  have resolved : resolve [] program = .ok [(4, 0)] := by
    generalize resolve [] program = found at resolved ⊢
    cases found <;> cases resolved
    rfl
  obtain ⟨_, one⟩ := numbers_identify_nodes {} ⟨fun _ => 0, 0⟩ [.parse "a.b=;"]
  obtain ⟨_, noted⟩ := one _ _ tree
  obtain ⟨use, unnoted⟩ := (noted [] _ resolved).1 (4, 0) List.mem_cons_self
  exact ⟨program, tree, by decide +kernel, numbers, resolved, use, unnoted⟩

end ScopeScript
