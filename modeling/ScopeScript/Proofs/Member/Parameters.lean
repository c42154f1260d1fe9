import ScopeScript.Proofs.Checks
import ScopeScript.Proofs.Frames.Heap

/-! The parameters of functions that passed the static checks. No two of a function have one name, so
as many arguments as there are parameters are bound each to its own. -/
namespace ScopeScript

namespace Table
variable {α : Type}

/-- Entries that do not touch a name leave it as it is. -/
theorem get?_foldl_insert_of_not_mem {entries : List (String × α)} {name : String}
    (other : name ∉ entries.map Prod.fst) (t : Table α) :
    (entries.foldl (fun t e => t.insert e.1 e.2) t).get? name = t.get? name := by
  induction entries generalizing t with
  | nil => rfl
  | cons entry rest ih =>
    obtain ⟨first, others⟩ := not_or.mp (mt List.mem_cons.mpr other)
    rw [List.foldl_cons, ih others, get?_insert, if_neg (Ne.symm first)]

/-- Entries with new and different names come behind those there are, in their order. -/
theorem names_foldl_insert {entries : List (String × α)} {t : Table α}
    (distinct : (t.names ++ entries.map Prod.fst).Nodup) :
    (entries.foldl (fun t e => t.insert e.1 e.2) t).names = t.names ++ entries.map Prod.fst := by
  induction entries generalizing t with
  | nil => rw [List.foldl_nil, List.map_nil, List.append_nil]
  | cons entry rest ih =>
    have new : entry.1 ∉ t.names := by
      intro member
      exact (List.nodup_append.mp distinct).2.2 entry.1 member entry.1 List.mem_cons_self rfl
    have added : (t.insert entry.1 entry.2).names = t.names ++ [entry.1] := by
      rw [names_insert, if_neg new]
    rw [List.map_cons, List.append_cons, ← added] at distinct
    rw [List.foldl_cons, ih distinct, added, List.map_cons, ← List.append_cons]

/-- Each of different names has its own value. -/
theorem get?_ofList_zip {keys : List String} (distinct : keys.Nodup) (values : List α) (k : Nat)
    (enough : values.length = keys.length) :
    (keys[k]?).bind (Table.ofList (keys.zip values)).get? = values[k]? := by
  suffices ∀ t : Table α, (keys[k]?).bind
      ((keys.zip values).foldl (fun t e => t.insert e.1 e.2) t).get? = values[k]? from this {}
  induction keys generalizing values k with
  | nil =>
    obtain rfl := List.eq_nil_of_length_eq_zero enough
    exact fun _ => rfl
  | cons key rest ih =>
    obtain ⟨value, others, rfl⟩ := List.exists_cons_of_length_eq_add_one enough
    obtain ⟨first, distinct⟩ := List.nodup_cons.mp distinct
    have enough := Nat.succ.inj enough
    intro t
    cases k with
    | succ k => exact ih distinct others k enough _
    | zero =>
      have kept : key ∉ (rest.zip others).map Prod.fst := by
        rw [List.map_fst_zip (Nat.le_of_eq enough.symm)]
        exact first
      rw [List.zip_cons_cons, List.foldl_cons]
      exact (get?_foldl_insert_of_not_mem kept _).trans (by rw [get?_insert, if_pos rfl]; rfl)

end Table

/-! Code that passed the static checks. -/

def FunctionDecl.Passed (d : FunctionDecl) : Prop := ∃ n c, d.Scoped n c

def Stmt.Passed (s : Stmt) : Prop := ∃ n c, s.Scoped n c

theorem Stmt.passed_of_scopedEach {n : Notes} {c : Context} {body : List Stmt}
    (agrees : Stmt.ScopedEach n c body) : ∀ s ∈ body, s.Passed := by
  induction body generalizing c with
  | nil => exact List.forall_mem_nil _
  | cons s rest ih => exact List.forall_mem_cons.mpr ⟨⟨n, c, agrees.1⟩, ih agrees.2⟩

theorem FunctionDecl.passed_of_scopedEach {n : Notes} {c : Context} {methods : List FunctionDecl}
    (agrees : FunctionDecl.ScopedEach n c methods) : ∀ d ∈ methods, d.Passed := by
  induction methods with
  | nil => exact List.forall_mem_nil _
  | cons d rest ih => exact List.forall_mem_cons.mpr ⟨⟨n, c, agrees.1⟩, ih agrees.2⟩

theorem FunctionDecl.Passed.body {d : FunctionDecl} (passed : d.Passed) :
    ∀ s ∈ d.body, s.Passed := by
  obtain ⟨n, c, agrees⟩ := passed
  obtain ⟨name, params, body⟩ := d
  exact Stmt.passed_of_scopedEach agrees.2

/-- A program that the static checks accept is made of statements that passed. -/
theorem checkSource_passed {globals : List String} {nextId next : ExprId} {source : String}
    {checked : Checked} (passed : checkSource globals nextId source = (.ok checked, next)) :
    ∀ s ∈ checked.program, s.Passed := by
  have unused (id : ExprId) : ({} : Distances).get? id = none := rfl
  exact Stmt.passed_of_scopedEach (checkSource_noted passed fun id _ => unused id).2.1

/-- A parameter is in nobody's way in its scope, least of all in that of another parameter. -/
theorem Scopes.FreshParams.distinct {s : Scopes} {params : List Lexeme} {scope : List String}
    {outer : List (List String)} (inside : s.locals = scope :: outer) (fresh : s.FreshParams params) :
    (params.map (·.text)).Nodup ∧ ∀ x ∈ params.map (·.text), x ∉ scope := by
  induction params generalizing s scope with
  | nil => exact ⟨List.nodup_nil, List.forall_mem_nil _⟩
  | cons p rest ih =>
    obtain ⟨first, others⟩ := fresh
    have declared : (s.declare p.text).locals = (p.text :: scope) :: outer := by
      rw [declare, inside]
    have new : p.text ∉ scope := by
      rw [Fresh, inside] at first
      exact first
    obtain ⟨distinct, apart⟩ := ih declared others
    refine ⟨List.nodup_cons.mpr ⟨fun again => ?_, distinct⟩, List.forall_mem_cons.mpr ⟨new, ?_⟩⟩
    · exact apart _ again List.mem_cons_self
    · exact fun x member inScope => apart x member (List.mem_cons_of_mem _ inScope)

theorem FunctionDecl.Passed.params {d : FunctionDecl} (passed : d.Passed) :
    (d.params.map (·.text)).Nodup := by
  obtain ⟨n, c, agrees⟩ := passed
  obtain ⟨name, params, body⟩ := d
  exact (Scopes.FreshParams.distinct rfl agrees.1).1

/-- A frame for the body of a function. It has the function's parameters and nothing else, and each
parameter has its own argument. -/
structure Closure.Entered (f : Closure) (arguments : List Value) (frame : FrameId) (m : Machine) :
    Prop where
  enough : arguments.length = f.arity
  enclosing : (m.store.frame frame).enclosing = some f.scope
  distinct : (f.declaration.params.map (·.text)).Nodup
  names : (m.store.frame frame).bindings.names = f.declaration.params.map (·.text)
  bound : ∀ k : Nat, (f.declaration.params[k]?).bind (fun p =>
    (m.store.frame frame).bindings.get? p.text) = arguments[k]?

theorem Closure.entered {f : Closure} {arguments : List Value} {frame : FrameId} {m : Machine}
    (passed : f.declaration.Passed) (enough : arguments.length = f.arity)
    (made : m.store.frame frame =
      { bindings := .ofList ((f.declaration.params.map (·.text)).zip arguments)
        enclosing := some f.scope }) : f.Entered arguments frame m := by
  have distinct := passed.params
  have enough' : arguments.length = (f.declaration.params.map (·.text)).length := by
    rw [List.length_map]
    exact enough
  have keys : ((f.declaration.params.map (·.text)).zip arguments).map Prod.fst =
    f.declaration.params.map (·.text) := List.map_fst_zip (Nat.le_of_eq enough'.symm)
  refine ⟨enough, by rw [made], distinct, ?_, fun k => ?_⟩
  · rw [made]
    rw [← keys] at distinct
    exact (Table.names_foldl_insert (t := {}) distinct).trans keys
  · rw [made, ← Table.get?_ofList_zip distinct arguments k enough', List.getElem?_map]
    cases f.declaration.params[k]? <;> rfl

end ScopeScript
