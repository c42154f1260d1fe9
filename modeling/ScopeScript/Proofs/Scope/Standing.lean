import ScopeScript.Proofs.Scope.Marks
import ScopeScript.Proofs.Tree.Shape

/-! The walk over a program keeps a context. At every mark it is what the marks before it say, so
the findings can be told from the marks alone. -/
namespace ScopeScript

/-! What is told at one mark. -/

/-- A breach of the scoping rules at a mark, with the error that reports it. -/
inductive Violation (known : List String) (before : List Mark) : Mark → ScopeError → Prop where
  | topLevelReturn {keyword : Lexeme} (outside : ∀ d, ¬InsideScope before .function d) :
    Violation known before (.returns keyword) ⟨.topLevelReturn, .ofLexeme keyword⟩
  | thisOutsideClass {id : ExprId} {keyword : Lexeme}
    (outside : ∀ d, ¬InsideScope before .methods d) :
    Violation known before (.this id keyword) ⟨.thisOutsideClass, .ofLexeme keyword⟩
  | duplicateName {kind : DeclarationKind} {name : Lexeme}
    (again : DeclaredLocally before name.text 0) :
    Violation known before (.declares kind name) ⟨.duplicateName, .ofLexeme name⟩
  | ownSuperclass {name parent : Lexeme} (same : parent.text = name.text) :
    Violation known before (.inherits name parent) ⟨.ownSuperclass, .ofLexeme parent⟩
  | ownInitialValue {id : ExprId} {name : Lexeme} (own : InInitialValue before name.text)
    (noLocal : ∀ d, ¬DeclaredLocally before name.text d)
    (unknown : name.text ∉ known) (noGlobal : ¬DeclaredGlobally before name.text) :
    Violation known before (.uses id name) ⟨.ownInitialValue, .ofLexeme name⟩

/-- The findings at one mark: a use has the distance of its nearest declaration, and a breach is
reported. -/
structure Tells (known : List String) (before : List Mark) (mark : Mark)
    (findings : List Finding) : Prop where
  atMostOne : findings.length ≤ 1
  found : ∀ id d, .found id d ∈ findings ↔
    ∃ x, mark.use? = some (id, x) ∧ NearestDeclaration before x d
  breach : ∀ error, .breach error ∈ findings ↔ Violation known before mark error

/-- The findings of a piece of text are those of its marks one after the other. -/
inductive Walk (known : List String) : List Mark → List Mark → List Finding → Prop where
  | done (before : List Mark) : Walk known before [] []
  | step {before rest : List Mark} {mark : Mark} {findings more : List Finding}
    (here : Tells known before mark findings) (further : Walk known (before ++ [mark]) rest more) :
    Walk known before (mark :: rest) (findings ++ more)

namespace Walk
variable {known : List String} {before text rest : List Mark} {findings more : List Finding}

theorem append (first : Walk known before text findings)
    (second : Walk known (before ++ text) rest more) :
    Walk known before (text ++ rest) (findings ++ more) := by
  induction first with
  | done before => simpa using second
  | step here further ih =>
    rw [List.append_assoc]
    exact .step here (ih (by simpa using second))

theorem single {mark : Mark} (here : Tells known before mark findings) :
    Walk known before [mark] findings := by
  simpa using Walk.step here (.done _)

end Walk

/-- Names are not keywords, and `this` is written as it is called. -/
def Mark.Spelled : Mark → Prop
  | declares _ name | uses _ name => name.text ≠ thisName
  | this _ keyword => keyword.text = thisName
  | _ => True

/-! What the marks before a place say about the context there. -/

/-- The visible names are those that are declared. -/
structure Scopes.Stands (known : List String) (before : List Mark) (s : Scopes) : Prop where
  depth : leftOpen before = some s.locals.length
  locals : ∀ x d, DeclaredLocally before x d ↔ ∃ names, s.locals[d]? = some names ∧ x ∈ names
  globals : ∀ x, x ∈ s.globals ↔ x ∈ known ∨ DeclaredGlobally before x

/-- The open scopes are of these kinds, from the innermost outwards. -/
def Around (before : List Mark) (kinds : List ScopeKind) : Prop :=
  ∀ kind d, InsideScope before kind d ↔ kinds[d]? = some kind

/-- A context agrees with all that stands before a place inside scopes of these kinds. -/
structure Context.Stands (known : List String) (before : List Mark) (kinds : List ScopeKind)
    (c : Context) : Prop where
  scopes : c.scopes.Stands known before
  around : Around before kinds
  inFunction : c.inFunction = true ↔ .function ∈ kinds
  inClass : c.inClass = true ↔ .methods ∈ kinds
  pending : ∀ x, c.pending = some x ↔ InInitialValue before x
  this : c.inClass = true ↔ ∃ names ∈ c.scopes.locals, thisName ∈ names

section Scopes
variable {known : List String} {before : List Mark} {s : Scopes} {x : String}

theorem Scopes.stands_start (known : List String) : Scopes.Stands known [] ⟨[], known⟩ where
  depth := rfl
  locals x d := by simp [DeclaredLocally]
  globals x := by simp [DeclaredGlobally]

theorem Scopes.Stands.enter (stands : s.Stands known before) (kind : ScopeKind) :
    (s.enter []).Stands known (before ++ [.opens kind]) where
  depth := by
    rw [leftOpen_concat, stands.depth]
    rfl
  locals x d := by
    rw [declaredLocally_concat]
    cases d with
    | zero => simp [Scopes.enter, Mark.depth]
    | succ d => simp [Scopes.enter, Mark.depth, stands.locals]
  globals x := by simp [Scopes.enter, declaredGlobally_concat, stands.globals]

theorem Scopes.Stands.declare (stands : s.Stands known before) (x : String) :
    (s.declare x).Stands known (before ++ [.completes x]) := by
  obtain ⟨locals, globals⟩ := s
  cases locals with
  | nil =>
    have depth : leftOpen before = some 0 := stands.depth
    refine ⟨?_, fun y d => ?_, fun y => ?_⟩
    · rw [leftOpen_concat, depth]
      rfl
    · rw [declaredLocally_concat, depth]
      simp [Scopes.declare, Mark.depth, stands.locals]
    · have added : y ∈ (Scopes.declare ⟨[], globals⟩ x).globals ↔ x = y ∨ y ∈ globals := by
        simp only [Scopes.declare]
        split <;> grind
      have old : y ∈ globals ↔ y ∈ known ∨ DeclaredGlobally before y := stands.globals y
      rw [added, old, declaredGlobally_concat, depth]
      simp [or_left_comm]
  | cons scope outer =>
    have depth : leftOpen before = some (outer.length + 1) := stands.depth
    refine ⟨?_, fun y d => ?_, fun y => ?_⟩
    · rw [leftOpen_concat, depth]
      rfl
    · have old := stands.locals y d
      rw [declaredLocally_concat, depth]
      simp only [Scopes.declare, Mark.depth] at old ⊢
      cases d with
      | zero =>
        simp only [List.getElem?_cons_zero, Option.some.injEq, exists_eq_left'] at old ⊢
        simp [old, eq_comm]
      | succ d => simp_all
    · rw [declaredGlobally_concat, depth]
      simpa [Scopes.declare] using stands.globals y

/-- Marks that neither open nor close a scope nor complete a declaration change nothing. -/
theorem Scopes.Stands.pass (stands : s.Stands known before) {mark : Mark}
    (level : ∀ n, mark.depth n = some n) (quiet : ∀ x, mark ≠ .completes x) :
    s.Stands known (before ++ [mark]) where
  depth := by
    rw [leftOpen_concat, stands.depth]
    exact level _
  locals x d := by simp [declaredLocally_concat, level, quiet, stands.locals]
  globals x := by simp [declaredGlobally_concat, quiet, stands.globals]

/-- Behind a scope everything is as it was before it. -/
theorem Scopes.Stands.close {names : List String}
    (stands : (s.enter names).Stands known before) : s.Stands known (before ++ [.closes]) where
  depth := by
    rw [leftOpen_concat, stands.depth]
    rfl
  locals x d := by
    have outer := stands.locals x (d + 1)
    have moved (e : Nat) : Mark.closes.depth e = some d ↔ e = d + 1 := by
      cases e <;> simp [Mark.depth]
    simpa [declaredLocally_concat, moved, Scopes.enter] using outer
  globals x := by simpa [declaredGlobally_concat, Scopes.enter] using stands.globals x

theorem Scopes.Stands.distance? (stands : s.Stands known before) {d : Nat} :
    s.distance? x = some d ↔ NearestDeclaration before x d := by
  simp only [Scopes.distance?, List.findIdx?_eq_some_iff_getElem, NearestDeclaration,
    stands.locals, List.contains_iff_mem]
  constructor
  · rintro ⟨bound, member, nearest⟩
    refine ⟨⟨_, List.getElem?_eq_getElem bound, member⟩, fun n below => ?_⟩
    rintro ⟨names, found, member⟩
    obtain ⟨inside, rfl⟩ := List.getElem?_eq_some_iff.mp found
    exact nearest n below member
  · rintro ⟨⟨names, found, member⟩, nearest⟩
    obtain ⟨bound, rfl⟩ := List.getElem?_eq_some_iff.mp found
    refine ⟨bound, member, fun n below member => nearest n below ?_⟩
    exact ⟨_, List.getElem?_eq_getElem (Nat.lt_trans below bound), member⟩

theorem Scopes.Stands.distance?_eq_none (stands : s.Stands known before) :
    s.distance? x = none ↔ ∀ d, ¬DeclaredLocally before x d := by
  simp only [Scopes.distance?, List.findIdx?_eq_none_iff, stands.locals]
  constructor
  · rintro absent d ⟨names, found, member⟩
    have := absent names (List.mem_of_getElem? found)
    simp_all
  · intro absent names member
    obtain ⟨d, found⟩ := List.getElem?_of_mem member
    have := absent d
    simp_all

end Scopes

/-! The steps of the walk over one mark. -/

section Steps
variable {known : List String} {before : List Mark} {kinds : List ScopeKind} {c : Context}

/-- Where neither a use nor a breach is, nothing is told. -/
theorem tells_nothing {mark : Mark} (noUse : mark.use? = none)
    (sound : ∀ error, ¬Violation known before mark error) : Tells known before mark [] where
  atMostOne := Nat.zero_le 1
  found id d := by simp [noUse]
  breach error := by simpa using sound error

theorem tells_opens (kind : ScopeKind) : Tells known before (.opens kind) [] :=
  tells_nothing rfl fun _ broken => nomatch broken

theorem tells_closes : Tells known before .closes [] :=
  tells_nothing rfl fun _ broken => nomatch broken

theorem tells_completes (x : String) : Tells known before (.completes x) [] :=
  tells_nothing rfl fun _ broken => nomatch broken

/-- Where there is no use, all that may be told is a breach. -/
theorem tells_breach {mark : Mark} {cause : ScopeCause} {l : Lexeme} {broken : Prop}
    [Decidable broken] (noUse : mark.use? = none)
    (means : ∀ error, Violation known before mark error ↔ error = ⟨cause, .ofLexeme l⟩ ∧ broken) :
    Tells known before mark (if broken then [.breachAt cause l] else []) := by
  by_cases here : broken
  · rw [if_pos here]
    refine ⟨Nat.le_refl 1, fun id d => ?_, fun error => ?_⟩
    · simp [noUse, Finding.breachAt]
    · simp [means, here, Finding.breachAt]
  · rw [if_neg here]
    exact tells_nothing noUse fun error told => here ((means error).mp told).2

namespace Context.Stands

theorem tells_uses (stands : c.Stands known before kinds) (id : ExprId) (name : Lexeme) :
    Tells known before (.uses id name) (c.reference id name) := by
  unfold reference
  cases found : c.scopes.distance? name.text with
  | some distance =>
    have nearest := stands.scopes.distance?.mp found
    refine ⟨Nat.le_refl 1, fun other d => ?_, fun error => ?_⟩
    · simp only [List.mem_singleton, Finding.found.injEq, Mark.use?, Option.some.injEq,
        Prod.mk.injEq]
      constructor
      · rintro ⟨rfl, rfl⟩
        exact ⟨_, ⟨rfl, rfl⟩, nearest⟩
      · rintro ⟨x, ⟨rfl, rfl⟩, other⟩
        rw [← stands.scopes.distance?, found, Option.some.injEq] at other
        exact ⟨rfl, other.symm⟩
    · constructor
      · intro reported
        simp at reported
      · intro broken
        cases broken with
        | ownInitialValue _ noLocal _ _ => exact absurd nearest.1 (noLocal distance)
  | none =>
    have absent := stands.scopes.distance?_eq_none.mp found
    have unseen (other : ExprId) (d : Nat) :
        ¬∃ x, (Mark.uses id name).use? = some (other, x) ∧ NearestDeclaration before x d := by
      rintro ⟨x, same, nearest⟩
      cases same
      exact absent d nearest.1
    have means (error : ScopeError) : Violation known before (.uses id name) error ↔
        error = ⟨.ownInitialValue, .ofLexeme name⟩ ∧
          (c.pending = some name.text ∧ name.text ∉ c.scopes.globals) := by
      rw [stands.pending, stands.scopes.globals, not_or]
      constructor
      · rintro ⟨⟩
        exact ⟨rfl, ‹_›, ‹_›, ‹_›⟩
      · rintro ⟨rfl, own, unknown, noGlobal⟩
        exact .ownInitialValue own absent unknown noGlobal
    by_cases own : c.pending = some name.text ∧ name.text ∉ c.scopes.globals
    · simp only [if_pos own]
      refine ⟨Nat.le_refl 1, fun other d => ?_, fun error => ?_⟩
      · simpa [Finding.breachAt] using unseen other d
      · rw [means, List.mem_singleton, Finding.breachAt, Finding.breach.injEq,
          and_iff_left own]
    · simp only [if_neg own]
      refine ⟨Nat.zero_le 1, fun other d => ?_, fun error => ?_⟩
      · simpa using unseen other d
      · simp only [means, own, and_false, List.not_mem_nil]

theorem tells_this (stands : c.Stands known before kinds) (id : ExprId) {keyword : Lexeme}
    (spelled : keyword.text = thisName) :
    Tells known before (.this id keyword)
      (if c.inClass then c.reference id keyword else [.breachAt .thisOutsideClass keyword]) := by
  have inside : c.inClass = true ↔ ∃ d, InsideScope before .methods d := by
    simp only [stands.inClass, stands.around _ _, List.mem_iff_getElem?]
  have declared : c.inClass = true ↔ ∃ d, DeclaredLocally before thisName d := by
    rw [stands.this]
    simp only [stands.scopes.locals]
    constructor
    · rintro ⟨names, member, this⟩
      obtain ⟨d, found⟩ := List.getElem?_of_mem member
      exact ⟨d, names, found, this⟩
    · rintro ⟨d, names, found, this⟩
      exact ⟨names, List.mem_of_getElem? found, this⟩
  by_cases methods : c.inClass = true
  · rw [if_pos methods]
    obtain ⟨outer, reach⟩ := inside.mp methods
    obtain ⟨least, shown⟩ := declared.mp methods
    have told := stands.tells_uses id keyword
    refine ⟨told.atMostOne, fun other d => ?_, fun error => ?_⟩
    · simpa [Mark.use?, spelled] using told.found other d
    · rw [told.breach]
      constructor
      · intro broken
        cases broken with
        | ownInitialValue _ noLocal _ _ =>
          rw [spelled] at noLocal
          exact absurd shown (noLocal least)
      · intro broken
        cases broken with
        | thisOutsideClass outside => exact absurd reach (outside outer)
  · rw [if_neg methods]
    rw [inside, not_exists] at methods
    refine ⟨Nat.le_refl 1, fun other d => ?_, fun error => ?_⟩
    · simp only [Finding.breachAt, List.mem_singleton, reduceCtorEq, false_iff, not_exists]
      rintro x ⟨same, nearest⟩
      cases same
      rw [← not_exists, ← inside, declared] at methods
      exact methods ⟨d, nearest.1⟩
    · rw [Finding.breachAt, List.mem_singleton, Finding.breach.injEq]
      constructor
      · rintro rfl
        exact .thisOutsideClass methods
      · rintro ⟨⟩
        rfl

theorem tells_returns (stands : c.Stands known before kinds) (keyword : Lexeme) :
    Tells known before (.returns keyword)
      (if c.inFunction then [] else [.breachAt .topLevelReturn keyword]) := by
  rw [← ite_not]
  refine tells_breach rfl fun error => ?_
  have outside : ¬c.inFunction = true ↔ ∀ d, ¬InsideScope before .function d := by
    simp only [stands.inFunction, stands.around _ _, List.mem_iff_getElem?, not_exists]
  rw [outside]
  constructor
  · rintro ⟨⟩
    exact ⟨rfl, ‹_›⟩
  · rintro ⟨rfl, none⟩
    exact .topLevelReturn none

theorem tells_declares (stands : c.Stands known before kinds) (kind : DeclarationKind)
    (name : Lexeme) : Tells known before (.declares kind name) (c.scopes.duplicate name) := by
  have again := stands.scopes.locals name.text 0
  have means (error : ScopeError) : Violation known before (.declares kind name) error ↔
      error = ⟨.duplicateName, .ofLexeme name⟩ ∧ DeclaredLocally before name.text 0 := by
    constructor
    · rintro ⟨⟩
      exact ⟨rfl, ‹_›⟩
    · rintro ⟨rfl, again⟩
      exact .duplicateName again
  unfold Scopes.duplicate
  cases inside : c.scopes.locals with
  | nil =>
    refine tells_nothing rfl fun error told => ?_
    have := again.mp ((means error).mp told).2
    simp [inside] at this
  | cons scope outer =>
    refine tells_breach rfl fun error => ?_
    rw [means, again, inside]
    simp

theorem tells_inherits (name parent : Lexeme) : Tells known before (.inherits name parent)
    (if parent.text = name.text then [.breachAt .ownSuperclass parent] else []) := by
  refine tells_breach rfl fun error => ?_
  constructor
  · rintro ⟨⟩
    exact ⟨rfl, ‹_›⟩
  · rintro ⟨rfl, same⟩
    exact .ownSuperclass same

end Context.Stands

end Steps

/-! How the context moves on. -/

section Moves
variable {known : List String} {before : List Mark} {kinds : List ScopeKind} {c : Context}

theorem Around.enter (around : Around before kinds) (kind : ScopeKind) :
    Around (before ++ [.opens kind]) (kind :: kinds) := by
  intro other d
  rw [insideScope_concat]
  cases d with
  | zero => simp [Mark.depth]
  | succ d => simp [Mark.depth, around other _]

theorem Around.close {kind : ScopeKind} (around : Around before (kind :: kinds)) :
    Around (before ++ [.closes]) kinds := by
  intro other d
  have moved (e : Nat) : Mark.closes.depth e = some d ↔ e = d + 1 := by
    cases e <;> simp [Mark.depth]
  simpa [insideScope_concat, moved] using around other (d + 1)

theorem Around.pass (around : Around before kinds) {mark : Mark}
    (level : ∀ n, mark.depth n = some n) : Around (before ++ [mark]) kinds := by
  intro other d
  have quiet : mark ≠ .opens other := by
    rintro rfl
    simpa [Mark.depth] using level 0
  simp [insideScope_concat, level, quiet, around other d]

/-- Behind a mark that is neither a use nor the beginning of a variable no initial value goes on. -/
theorem pending_of_idle (idle : c.pending = none) {mark : Mark} (noUse : mark.use? = none)
    (noVariable : ∀ name, mark ≠ .declares .ofVariable name) (x : String) :
    c.pending = some x ↔ InInitialValue (before ++ [mark]) x := by
  simp [idle, inInitialValue_concat, noUse, noVariable]

theorem Scopes.knowsThis_declare {s : Scopes} {x : String} (other : x ≠ thisName) :
    (∃ names ∈ (s.declare x).locals, thisName ∈ names) ↔ ∃ names ∈ s.locals, thisName ∈ names := by
  unfold declare
  split
  · simp_all
  · next inside => simp [inside, other.symm]

namespace Context.Stands

theorem start (known : List String) :
    Context.Stands known [] [] { scopes := ⟨[], known⟩ } where
  scopes := Scopes.stands_start known
  around kind d := by simp [InsideScope]
  inFunction := by simp
  inClass := by simp
  pending x := by simp [InInitialValue]
  this := by simp

/-- A use changes nothing. -/
theorem use (stands : c.Stands known before kinds) {mark : Mark}
    (use : mark.use?.isSome = true) : c.Stands known (before ++ [mark]) kinds := by
  have level (n : Nat) : mark.depth n = some n := by
    cases mark <;> first | rfl | nomatch use
  have quiet (x : String) : mark ≠ .completes x := by
    rintro rfl
    nomatch use
  have noVariable (name : Lexeme) : mark ≠ .declares .ofVariable name := by
    rintro rfl
    nomatch use
  refine ⟨stands.scopes.pass level quiet, stands.around.pass level, stands.inFunction,
    stands.inClass, fun x => ?_, stands.this⟩
  simp [inInitialValue_concat, use, noVariable, stands.pending]

theorem initialValueOf (stands : c.Stands known before kinds) (name : Lexeme) :
    (c.initialValueOf name.text).Stands known (before ++ [.declares .ofVariable name]) kinds where
  scopes := stands.scopes.pass (fun _ => rfl) (fun _ => by simp)
  around := stands.around.pass fun _ => rfl
  inFunction := stands.inFunction
  inClass := stands.inClass
  pending x := by simp [inInitialValue_concat, Context.initialValueOf, Mark.use?]
  this := stands.this

/-- A declaration is complete. -/
theorem declare (stands : c.Stands known before kinds) {x : String} (other : x ≠ thisName) :
    Context.Stands known (before ++ [.completes x]) kinds
      { c.declare x with pending := none } where
  scopes := stands.scopes.declare x
  around := stands.around.pass fun _ => rfl
  inFunction := stands.inFunction
  inClass := stands.inClass
  pending := pending_of_idle rfl rfl nofun
  this := stands.this.trans (Scopes.knowsThis_declare other).symm

end Context.Stands

/-- Between statements no initial value goes on. -/
structure Context.Idle (known : List String) (before : List Mark) (kinds : List ScopeKind)
    (c : Context) : Prop extends c.Stands known before kinds where
  idle : c.pending = none

namespace Context.Idle

/-- Marks at which nothing but a breach is told. -/
theorem pass (ready : c.Idle known before kinds) (mark : Mark) (noUse : mark.use? = none)
    (noVariable : ∀ name, mark ≠ .declares .ofVariable name) (quiet : ∀ x, mark ≠ .completes x)
    (level : ∀ n, mark.depth n = some n) : c.Idle known (before ++ [mark]) kinds where
  scopes := ready.scopes.pass level quiet
  around := ready.around.pass level
  inFunction := ready.inFunction
  inClass := ready.inClass
  pending := pending_of_idle ready.idle noUse noVariable
  this := ready.this
  idle := ready.idle

theorem declare (ready : c.Idle known before kinds) {x : String} (other : x ≠ thisName) :
    (c.declare x).Idle known (before ++ [.completes x]) kinds := by
  have stands := ready.toStands.declare other
  have same : { c.declare x with pending := none } = c.declare x := by
    simp [Context.declare, ready.idle]
  rw [same] at stands
  exact ⟨stands, ready.idle⟩

theorem enter (ready : c.Idle known before kinds) :
    (c.enter []).Idle known (before ++ [.opens .block]) (.block :: kinds) where
  scopes := ready.scopes.enter .block
  around := ready.around.enter .block
  inFunction := by simpa [Context.enter] using ready.inFunction
  inClass := by simpa [Context.enter] using ready.inClass
  pending := pending_of_idle ready.idle rfl nofun
  this := by simpa [Context.enter, Scopes.enter] using ready.this
  idle := ready.idle

theorem enterFunction (ready : c.Idle known before kinds) :
    (c.functionBody []).Idle known (before ++ [.opens .function]) (.function :: kinds) where
  scopes := ready.scopes.enter .function
  around := ready.around.enter .function
  inFunction := by simp [functionBody]
  inClass := by simpa [functionBody] using ready.inClass
  pending := pending_of_idle ready.idle rfl nofun
  this := by simpa [functionBody, Scopes.declareParams, Scopes.enter] using ready.this
  idle := ready.idle

theorem enterClass (ready : c.Idle known before kinds) :
    c.classBody.Idle known (before ++ [.opens .methods, .completes thisName])
      (.methods :: kinds) := by
  rw [← List.singleton_append, ← List.append_assoc]
  exact {
    scopes := (ready.scopes.enter .methods).declare thisName
    around := (ready.around.enter .methods).pass fun _ => rfl
    inFunction := by simpa [classBody, Context.enter] using ready.inFunction
    inClass := by simp [classBody]
    pending := pending_of_idle ready.idle rfl nofun
    this := by simp [classBody, Context.enter, Scopes.enter]
    idle := ready.idle }

/-- Behind a scope the context is the one before it. -/
theorem close {inner : Context} {kind : ScopeKind} {within : List Mark} {names : List String}
    (ready : c.Idle known before kinds) (inside : inner.Idle known within (kind :: kinds))
    (shape : inner.scopes = c.scopes.enter names) :
    c.Idle known (within ++ [.closes]) kinds where
  scopes := Scopes.Stands.close (shape ▸ inside.scopes)
  around := inside.around.close
  inFunction := ready.inFunction
  inClass := ready.inClass
  pending := pending_of_idle ready.idle rfl nofun
  this := ready.this
  idle := ready.idle

end Context.Idle

end Moves

end ScopeScript
