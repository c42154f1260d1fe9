import Std.Data.TreeMap
import ScopeScript.Scope.Findings

/-! The distances of a program's local names, or its scoping errors. -/
namespace ScopeScript

/-- How many frames out the binding of a use lies, by the number of the use. A use that is
not listed is global. -/
abbrev Distances := Std.TreeMap ExprId Nat

namespace Finding

def entry? : Finding → Option (ExprId × Nat)
  | found id distance => some (id, distance)
  | breach _ => none

def error? : Finding → Option ScopeError
  | found _ _ => none
  | breach error => some error

end Finding

/-- Adds entries to a distance map; a later entry for one use replaces an earlier one. -/
def Distances.note (d : Distances) (entries : List (ExprId × Nat)) : Distances :=
  entries.foldl (fun d (id, distance) => d.insert id distance) d

/-- The findings of a program whose surroundings know some globals. -/
def programFindings (globals : List String) (program : List Stmt) : List Finding :=
  Stmt.findingsEach { scopes := ⟨[], globals⟩ } program

/-- The globals known behind a program. -/
def globalsAfter (globals : List String) (program : List Stmt) : List String :=
  (program.foldl Scopes.after ⟨[], globals⟩).globals

/-- The local uses of a program with their distances, or every scoping error in it. -/
def resolve (globals : List String) (program : List Stmt) :
    Except (List ScopeError) (List (ExprId × Nat)) :=
  let findings := programFindings globals program
  match findings.filterMap Finding.error? with
  | [] => .ok (findings.filterMap Finding.entry?)
  | errors => .error errors

end ScopeScript
