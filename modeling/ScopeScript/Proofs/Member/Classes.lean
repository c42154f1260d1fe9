import ScopeScript.Proofs.Trace.Evaluate

/-! Classes as their declarations make them. The methods of a class are those of its superclass with
its own put over them, so that a look-up along the chain of superclasses is a look-up in one
table. -/
namespace ScopeScript

namespace Class

/-- The superclass of a class, the superclass of that one and so on. -/
def ancestors : Class → List Class
  | mk _ none _ => []
  | mk _ (some parent) _ => parent :: parent.ancestors

theorem length_ancestors_lt : ∀ (c k : Class), k ∈ c.ancestors →
    k.ancestors.length < c.ancestors.length
  | mk _ none _, _, member => nomatch member
  | mk _ (some parent) _, k, member => by
    rw [ancestors, List.length_cons]
    rcases List.mem_cons.mp member with rfl | further
    · exact Nat.lt_succ_self _
    · exact Nat.lt_succ_of_lt (length_ancestors_lt parent k further)

/-- No class comes twice on a chain of superclasses. -/
theorem nodup_ancestors : ∀ c : Class, (c :: c.ancestors).Nodup
  | mk _ none _ => List.pairwise_singleton _ _
  | mk _ (some parent) _ => by
    refine List.nodup_cons.mpr ⟨fun again => ?_, nodup_ancestors parent⟩
    exact Nat.lt_irrefl _ (length_ancestors_lt _ _ again)

end Class

/-- A method as its declaration in a frame makes it. -/
def Closure.ofMethod (frame : FrameId) (d : FunctionDecl) : Closure :=
  ⟨d, frame, d.name.text = initName⟩

namespace Table

/-- Methods with those of a subclass put over them, in the order of their declarations. -/
def overriddenBy (inherited : Table Closure) (frame : FrameId) (methods : List FunctionDecl) :
    Table Closure :=
  methods.foldl (fun t d => t.insert d.name.text (.ofMethod frame d)) inherited

/-- Of the methods of one name the last one counts, and only then the inherited one. -/
theorem get?_overriddenBy (inherited : Table Closure) (frame : FrameId)
    (methods : List FunctionDecl) (x : String) :
    (inherited.overriddenBy frame methods).get? x =
      ((methods.reverse.find? (·.name.text = x)).map (.ofMethod frame)).or (inherited.get? x) := by
  induction methods generalizing inherited with
  | nil => rfl
  | cons d rest ih =>
    have step : inherited.overriddenBy frame (d :: rest) =
      (inherited.insert d.name.text (.ofMethod frame d)).overriddenBy frame rest := rfl
    rw [step, ih, get?_insert, List.reverse_cons, List.find?_append]
    cases rest.reverse.find? (·.name.text = x) with
    | some later => rfl
    | none =>
      by_cases same : d.name.text = x <;> simp [same]

end Table

theorem Eval.methodTable_eq (frame : FrameId) (methods : List FunctionDecl) :
    methodTable frame methods = ({} : Table Closure).overriddenBy frame methods := by
  rw [methodTable, Table.ofList, List.foldl_map]
  rfl

namespace Class

/-- A class that was made by a declaration, after its superclass was, and the table of all its
methods. The superclass is what its name held once the name of the class itself was bound. -/
inductive Built : List Moment → Class → Table Closure → Prop where
  | base {past earlier : List Moment} {m : Machine} {f : FrameId} {name : Lexeme}
      {methods : List FunctionDecl}
      (declared : earlier ++ [⟨.statement f (.classDecl name none methods), m⟩] <+: past) :
      Built past (.mk name.text none (Eval.methodTable f methods))
        (({} : Table Closure).overriddenBy f methods)
  | derived {past earlier : List Moment} {m m' : Machine} {f : FrameId} {name : Lexeme}
      {s : Superclass} {methods : List FunctionDecl} {parent : Class} {inherited : Table Closure}
      (declared : earlier ++ [⟨.statement f (.classDecl name (some s) methods), m⟩] <+: past)
      (read : Eval.readName f s.id s.name { m with store := m.store.define f name.text .nil } =
        .ok (.callable (.ofClass parent)) m')
      (older : Built earlier parent inherited) :
      Built past (.mk name.text (some parent) (Eval.methodTable f methods))
        (inherited.overriddenBy f methods)

namespace Built
variable {past later : List Moment} {c : Class} {table : Table Closure}

theorem mono (built : c.Built past table) (further : past <+: later) : c.Built later table := by
  cases built with
  | base declared => exact .base (declared.trans further)
  | derived declared read older => exact .derived (declared.trans further) read older

/-- A method is what the table has under its name. -/
theorem method?_eq (built : c.Built past table) (x : String) : c.method? x = table.get? x := by
  induction built with
  | base _ => rw [method?, Eval.methodTable_eq]
  | @derived _ _ _ _ f _ _ methods parent inherited _ _ _ ih =>
    rw [method?, ih, Eval.methodTable_eq, Table.get?_overriddenBy, Table.get?_overriddenBy]
    cases methods.reverse.find? (·.name.text = x) <;> rfl

theorem arity_eq (built : c.Built past table) :
    c.arity = (table.get? initName).elim 0 Closure.arity := by
  rw [arity, built.method?_eq]

/-- All superclasses on the chain were made by declarations. -/
theorem ancestors (built : c.Built past table) : ∀ k ∈ c.ancestors, ∃ t, k.Built past t := by
  induction built with
  | base _ => exact List.forall_mem_nil _
  | derived declared _ older ih =>
    intro k member
    have before := (List.prefix_append _ _).trans declared
    rcases List.mem_cons.mp member with rfl | further
    · exact ⟨_, older.mono before⟩
    · obtain ⟨t, built⟩ := ih k further
      exact ⟨t, built.mono before⟩

end Built
end Class
end ScopeScript
