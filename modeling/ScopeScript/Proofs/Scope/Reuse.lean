import ScopeScript.Proofs.Scope.Resolver

/-! What a walk does to a resolver. It adds to what was collected without looking at it, it leaves
scopes and kinds as it found them, and it reports no more if more globals are known. -/
namespace ScopeScript.Resolver

variable {ids others : List ExprId} {walk next : Resolver → Resolver}

/-! What is collected. -/

/-- What was collected before stands in front. -/
def behind (r before : Resolver) : Resolver :=
  { r with locals := before.locals ++ r.locals, errors := before.errors ++ r.errors }

/-- A walk that only adds to what was collected, and distances for nodes with these numbers only. -/
structure Adds (ids : List ExprId) (walk : Resolver → Resolver) : Prop where
  behind : ∀ r before : Resolver, walk (r.behind before) = (walk r).behind before
  within : ∀ (r : Resolver) (entry : ExprId × Nat), entry ∈ (walk r).locals →
    entry ∈ r.locals ∨ entry.1 ∈ ids

namespace Adds

theorem andThen (first : Adds ids walk) (second : Adds others next) :
    Adds (ids ++ others) fun r => next (walk r) := by
  constructor
  · intro r before
    rw [first.behind, second.behind]
  · intro r entry member
    rcases second.within _ entry member with earlier | new
    · rcases first.within r entry earlier with old | new
      · exact .inl old
      · exact .inr (List.mem_append_left _ new)
    · exact .inr (List.mem_append_right _ new)

/-- A step that finds no distance. -/
theorem of_quiet (blind : ∀ r before : Resolver, walk (r.behind before) = (walk r).behind before)
    (quiet : ∀ r : Resolver, (walk r).locals = r.locals) : Adds ids walk :=
  ⟨blind, fun r _ member => .inl (quiet r ▸ member)⟩

theorem skip : Adds ids fun r => r := of_quiet (fun _ _ => rfl) fun _ => rfl

theorem error (cause : ScopeCause) (l : Lexeme) : Adds ids (error cause l) :=
  of_quiet (fun r before => by simp [Resolver.error, Resolver.behind]) fun _ => rfl

/-- Which of two ways is taken does not depend on what was collected. -/
theorem ite {breaks : Resolver → Prop} [DecidablePred breaks]
    (blind : ∀ r before : Resolver, breaks (r.behind before) ↔ breaks r) (yes : Adds ids walk)
    (no : Adds ids next) : Adds ids fun r => if breaks r then walk r else next r := by
  constructor
  · intro r before
    simp only [blind]
    split
    · exact yes.behind r before
    · exact no.behind r before
  · intro r
    split
    · exact yes.within r
    · exact no.within r

theorem declare (name : Lexeme) : Adds [] (declare name) := by
  apply of_quiet
  · rintro ⟨scopes, globals, locals, errors, _, _⟩ before
    cases scopes with
    | nil => rfl
    | cons scope outer =>
      by_cases again : scope.contains name.text <;>
        simp [Resolver.declare, Resolver.behind, Resolver.error, again]
  · intro r
    unfold Resolver.declare
    split
    · rfl
    · split <;> rfl

theorem define (name : String) : Adds [] (define name) := by
  apply of_quiet
  · rintro ⟨scopes, globals, locals, errors, _, _⟩ before
    cases scopes <;> rfl
  · intro r
    unfold Resolver.define
    split <;> rfl

theorem reference (id : ExprId) (name : Lexeme) : Adds [id] (reference id name) := by
  have unseen : Adds [id] fun r => if r.begun name.text = true ∧
      r.globals.get? name.text ≠ some true then r.error .ownInitialValue name else r :=
    ite (fun _ _ => Iff.rfl) (error _ name) skip
  constructor
  · intro r before
    have same : (r.behind before).distance? name.text = r.distance? name.text := rfl
    unfold Resolver.reference
    rw [same]
    cases r.distance? name.text with
    | some distance => simp [Resolver.behind]
    | none => exact unseen.behind r before
  · intro r entry member
    unfold Resolver.reference at member
    cases found : r.distance? name.text with
    | some distance =>
      rw [found] at member
      rcases List.mem_append.mp member with old | new
      · exact .inl old
      · cases List.mem_singleton.mp new
        exact .inr (List.mem_singleton_self id)
    | none =>
      rw [found] at member
      exact unseen.within r entry member

theorem exprRule : ExprRule Adds where
  skip := skip
  node _ inside :=
    ⟨inside.behind, fun r entry member =>
      (inside.within r entry member).imp_right (List.mem_append_left _)⟩
  andThen := andThen
  reference := reference
  this id keyword := ite (fun _ _ => Iff.rfl) (error _ keyword) (reference id keyword)

/-- Every walk only adds to what was collected. -/
theorem rule : WalkRule Adds where
  toExprRule := exprRule
  returns keyword := ite (fun _ _ => Iff.rfl) (error _ keyword) skip
  inherits name parent := ite (fun _ _ => Iff.rfl) (error _ parent.name) skip
  declared name := (declare name).andThen (define name.text)
  define := define
  ofVariable name initial := by
    have whole := ((declare name).andThen (exprRule.optional initial)).andThen (define name.text)
    rwa [List.nil_append, List.append_nil] at whole
  scope inside := by
    refine ⟨fun r before => ?_, fun r => inside.within _⟩
    have moved := inside.behind { r with scopes := {} :: r.scopes } before
    exact congrArg (fun q : Resolver => { q with scopes := q.scopes.tail }) moved
  functionScope kind inside := by
    refine ⟨fun r before => ?_, fun r => inside.within _⟩
    have moved := inside.behind { r with functionKind := kind } before
    exact congrArg (fun q : Resolver => { q with functionKind := r.functionKind }) moved
  classScope inside := by
    refine ⟨fun r before => ?_, fun r => inside.within _⟩
    have moved := inside.behind { r with classKind := .inside } before
    exact congrArg (fun q : Resolver => { q with classKind := r.classKind }) moved

end Adds

/-! What is put back. -/

/-- Every global that is known is complete. -/
def Settled (r : Resolver) : Prop := ∀ x complete, r.globals.get? x = some complete → complete = true

/-- What a walk leaves as it was. Only the innermost scope may have more names. -/
structure Restores (r walked : Resolver) : Prop where
  outer : walked.scopes.tail = r.scopes.tail
  depth : walked.scopes.length = r.scopes.length
  functionKind : walked.functionKind = r.functionKind
  classKind : walked.classKind = r.classKind
  settled : r.Settled → walked.Settled
  known : ∀ x, r.globals.get? x = some true → walked.globals.get? x = some true

/-- A walk that only collects. -/
def Looks (walk : Resolver → Resolver) : Prop :=
  ∀ r, ∃ locals errors, walk r = { r with locals, errors }

theorem Looks.ite {breaks : Resolver → Prop} [DecidablePred breaks] (yes : Looks walk)
    (no : Looks next) : Looks fun r => if breaks r then walk r else next r := by
  intro r
  dsimp only
  split
  · exact yes r
  · exact no r

theorem looks_skip : Looks fun r => r := fun r => ⟨r.locals, r.errors, rfl⟩

theorem looks_error (cause : ScopeCause) (l : Lexeme) : Looks (error cause l) :=
  fun r => ⟨r.locals, _, rfl⟩

theorem looks_reference (id : ExprId) (name : Lexeme) : Looks (reference id name) := by
  intro r
  unfold reference
  cases r.distance? name.text with
  | some distance => exact ⟨_, r.errors, rfl⟩
  | none =>
    dsimp only
    split
    · exact looks_error _ name r
    · exact looks_skip r

/-- Expressions declare nothing. -/
theorem looks_rule : ExprRule fun _ => Looks where
  skip := looks_skip
  node _ inside := inside
  andThen first second r := by
    obtain ⟨locals, errors, walked⟩ := first r
    dsimp only
    rw [walked]
    exact second _
  reference := looks_reference
  this id keyword := .ite (looks_error _ keyword) (looks_reference id keyword)

/-- A declaration that is complete has left nothing else behind, whatever was collected meanwhile. -/
theorem define_declare (name : Lexeme) (r : Resolver) (locals : List (ExprId × Nat))
    (errors : List ScopeError) :
    define name.text { r.declare name with locals, errors } =
      define name.text { r with locals, errors } := by
  obtain ⟨scopes, globals, _, _, _, _⟩ := r
  cases scopes with
  | nil =>
    by_cases known : globals.contains name.text <;>
      simp [declare, define, beginIn, known, Table.insert_insert]
  | cons scope outer =>
    by_cases again : scope.contains name.text <;>
      simp [declare, define, error, again, Table.insert_insert]

namespace Restores

theorem collected (r : Resolver) (locals : List (ExprId × Nat)) (errors : List ScopeError) :
    r.Restores { r with locals, errors } :=
  ⟨rfl, rfl, rfl, rfl, fun settled => settled, fun _ known => known⟩

theorem of_looks (looks : Looks walk) (r : Resolver) : r.Restores (walk r) := by
  obtain ⟨locals, errors, walked⟩ := looks r
  rw [walked]
  exact collected r locals errors

theorem trans {r middle walked : Resolver} (first : r.Restores middle)
    (second : middle.Restores walked) : r.Restores walked where
  outer := second.outer.trans first.outer
  depth := second.depth.trans first.depth
  functionKind := second.functionKind.trans first.functionKind
  classKind := second.classKind.trans first.classKind
  settled before := second.settled (first.settled before)
  known x before := second.known x (first.known x before)

theorem define (name : String) (r : Resolver) : r.Restores (r.define name) := by
  obtain ⟨scopes, globals, _, _, _, _⟩ := r
  cases scopes with
  | nil =>
    refine ⟨rfl, rfl, rfl, rfl, fun settled x b found => ?_, fun x known => ?_⟩
    · simp only [Resolver.define, Table.get?_insert] at found
      split at found
      · exact (Option.some.inj found).symm
      · exact settled x b found
    · simp only [Resolver.define, Table.get?_insert]
      split
      · rfl
      · exact known
  | cons scope outer =>
    exact ⟨rfl, rfl, rfl, rfl, fun settled => settled, fun _ known => known⟩

theorem declaration (name : Lexeme) (r : Resolver) (locals : List (ExprId × Nat))
    (errors : List ScopeError) :
    r.Restores (Resolver.define name.text { r.declare name with locals, errors }) := by
  rw [define_declare]
  exact (collected r locals errors).trans (define name.text _)

/-- Every walk puts back what it changed, errors or not. -/
theorem rule : WalkRule fun _ walk => ∀ r : Resolver, r.Restores (walk r) where
  skip := .of_looks looks_skip
  node _ inside := inside
  andThen first second r := (first r).trans (second _)
  reference id name := .of_looks (looks_reference id name)
  this id keyword := .of_looks (looks_rule.this id keyword)
  returns keyword := .of_looks (.ite (looks_error _ keyword) looks_skip)
  inherits name parent := .of_looks (.ite (looks_error _ parent.name) looks_skip)
  declared name r := declaration name r _ _
  define := define
  ofVariable name initial r := by
    obtain ⟨locals, errors, walked⟩ := looks_rule.optional initial (r.declare name)
    rw [Resolver.statement, walked]
    exact declaration name r locals errors
  scope inside r := by
    have walked := inside { r with scopes := {} :: r.scopes }
    have back : (insideScope _ r).scopes = r.scopes := walked.outer
    exact ⟨by rw [back], by rw [back], walked.functionKind, walked.classKind, walked.settled,
      walked.known⟩
  functionScope kind inside r := by
    have walked := inside { r with functionKind := kind }
    exact ⟨walked.outer, walked.depth, rfl, walked.classKind, walked.settled, walked.known⟩
  classScope inside r := by
    have walked := inside { r with classKind := .inside }
    exact ⟨walked.outer, walked.depth, walked.functionKind, rfl, walked.settled, walked.known⟩

end Restores

/-! What is known. -/

/-- The same errors but for some uses of a variable in its own initial value. -/
structure Fewer (few all : List ScopeError) : Prop where
  sublist : few.Sublist all
  others : few.filter (·.cause ≠ .ownInitialValue) = all.filter (·.cause ≠ .ownInitialValue)

namespace Fewer
variable {few all : List ScopeError}

theorem both (fewer : Fewer few all) (error : ScopeError) :
    Fewer (few ++ [error]) (all ++ [error]) := by
  refine ⟨fewer.sublist.append_right [error], ?_⟩
  rw [List.filter_append, List.filter_append, fewer.others]

theorem missing (fewer : Fewer few all) {error : ScopeError} (own : error.cause = .ownInitialValue) :
    Fewer few (all ++ [error]) := by
  refine ⟨fewer.sublist.trans (List.sublist_append_left _ _), ?_⟩
  rw [List.filter_append, fewer.others]
  simp [own]

end Fewer

theorem get?_beginIn (t : Table Bool) (x y : String) :
    (beginIn t x).get? y = if x = y then some ((t.get? x).getD false) else t.get? y := by
  unfold beginIn Table.contains
  split
  · next known =>
    obtain ⟨b, found⟩ := Option.isSome_iff_exists.mp known
    split
    · next same => rw [← same, found, Option.getD_some]
    · rfl
  · next unknown =>
    rw [Bool.not_eq_true, Option.isSome_eq_false_iff, Option.isNone_iff_eq_none] at unknown
    rw [Table.get?_insert, unknown, Option.getD_none]

/-- A name that is begun becomes known nowhere, and stays known where it was. -/
theorem getD_known {a b : Option Bool} (known : a = some true → b = some true)
    (begun : b = some false → a = some false) :
    (some (a.getD false) = some true → some (b.getD false) = some true) ∧
      (some (b.getD false) = some false → some (a.getD false) = some false) := by
  rcases a with _ | _ | _ <;> rcases b with _ | _ | _ <;> simp_all

/-- Two resolvers at the same place of a walk, the second of which knows more globals. -/
structure KnowsMore (r more : Resolver) : Prop where
  same : more = { r with globals := more.globals, errors := more.errors }
  known : ∀ x, r.globals.get? x = some true → more.globals.get? x = some true
  begun : ∀ x, more.globals.get? x = some false → r.globals.get? x = some false
  fewer : Fewer more.errors r.errors

namespace KnowsMore
variable {r more : Resolver}

/-- A step that looks at the scopes and kinds only. -/
theorem error (knows : KnowsMore r more) (cause : ScopeCause) (l : Lexeme) :
    KnowsMore (r.error cause l) (more.error cause l) := by
  obtain ⟨same, known, begun, fewer⟩ := knows
  refine ⟨?_, known, begun, fewer.both _⟩
  rw [same]
  rfl

theorem ite (knows : KnowsMore r more) {breaks : Prop} [Decidable breaks] (cause : ScopeCause)
    (l : Lexeme) : KnowsMore (if breaks then r.error cause l else r)
      (if breaks then more.error cause l else more) := by
  split
  · exact knows.error cause l
  · exact knows

theorem reference (knows : KnowsMore r more) (id : ExprId) (name : Lexeme) :
    KnowsMore (r.reference id name) (more.reference id name) := by
  have scopes : more.scopes = r.scopes := by rw [knows.same]
  unfold Resolver.reference Resolver.distance? Resolver.begun
  rw [scopes]
  cases r.scopes.findIdx? (·.get? name.text == some true) with
  | some distance =>
    refine ⟨?_, knows.known, knows.begun, knows.fewer⟩
    rw [knows.same]
  | none =>
    dsimp only
    -- what the second one reports is reported by the first one too
    split
    · split
      · exact knows.error _ name
      · exact ⟨knows.same, knows.known, knows.begun, knows.fewer.missing rfl⟩
    · next silent =>
      rw [if_neg]
      · exact knows
      · rintro ⟨begun, unknown⟩
        refine silent ⟨?_, fun known => unknown (knows.known _ known)⟩
        rw [Bool.or_eq_true, beq_iff_eq] at begun ⊢
        exact begun.imp_right (knows.begun _)

/-- Scopes change alike; globals may be known to the second one only. -/
theorem update (knows : KnowsMore r more) (scopes : List (Table Bool)) {known others : Table Bool}
    (complete : ∀ x, known.get? x = some true → others.get? x = some true)
    (begun : ∀ x, others.get? x = some false → known.get? x = some false) :
    KnowsMore { r with scopes, globals := known } { more with scopes, globals := others } := by
  refine ⟨?_, complete, begun, knows.fewer⟩
  rw [knows.same]

theorem declare (knows : KnowsMore r more) (name : Lexeme) :
    KnowsMore (r.declare name) (more.declare name) := by
  have scopes : more.scopes = r.scopes := by rw [knows.same]
  unfold Resolver.declare
  rw [scopes]
  cases r.scopes with
  | nil =>
    have here := getD_known (knows.known name.text) (knows.begun name.text)
    apply knows.update []
    · intro x
      rw [get?_beginIn, get?_beginIn]
      split
      · exact here.1
      · exact knows.known x
    · intro x
      rw [get?_beginIn, get?_beginIn]
      split
      · exact here.2
      · exact knows.begun x
  | cons scope outer =>
    dsimp only
    split
    · exact knows.error _ name
    · exact knows.update _ knows.known knows.begun

theorem define (knows : KnowsMore r more) (name : String) :
    KnowsMore (r.define name) (more.define name) := by
  have scopes : more.scopes = r.scopes := by rw [knows.same]
  unfold Resolver.define
  rw [scopes]
  cases r.scopes with
  | nil =>
    apply knows.update []
    · intro x
      rw [Table.get?_insert, Table.get?_insert]
      split
      · exact fun complete => complete
      · exact knows.known x
    · intro x
      rw [Table.get?_insert, Table.get?_insert]
      split
      · exact fun begun => begun
      · exact knows.begun x
  | cons scope outer => exact knows.update _ knows.known knows.begun

theorem exprRule : ExprRule fun _ walk => ∀ {r more : Resolver}, KnowsMore r more →
    KnowsMore (walk r) (walk more) where
  skip knows := knows
  node _ inside := inside
  andThen first second _ _ knows := second (first knows)
  reference id name _ _ knows := knows.reference id name
  this id keyword r more knows := by
    have kind : more.classKind = r.classKind := by rw [knows.same]
    unfold Resolver.this
    rw [kind]
    split
    · exact knows.error _ keyword
    · exact knows.reference id keyword

/-- Every walk keeps two resolvers in step. -/
theorem rule : WalkRule fun _ walk => ∀ {r more : Resolver}, KnowsMore r more →
    KnowsMore (walk r) (walk more) where
  toExprRule := exprRule
  returns keyword r more knows := by
    have kind : more.functionKind = r.functionKind := by rw [knows.same]
    unfold Resolver.returns
    rw [kind]
    exact knows.ite _ keyword
  inherits name parent _ _ knows := knows.ite _ parent.name
  declared name _ _ knows := (knows.declare name).define name.text
  define name _ _ knows := knows.define name
  ofVariable name initial _ _ knows := by
    have valued := exprRule.optional initial (knows.declare name)
    exact valued.define name.text
  scope inside r more knows := by
    have entered : KnowsMore { r with scopes := {} :: r.scopes }
        { more with scopes := {} :: more.scopes } := by
      have scopes : more.scopes = r.scopes := by rw [knows.same]
      rw [scopes]
      exact knows.update _ knows.known knows.begun
    have walked := inside entered
    refine ⟨?_, walked.known, walked.begun, walked.fewer⟩
    unfold insideScope
    rw [walked.same]
  functionScope kind inside r more knows := by
    have entered : KnowsMore { r with functionKind := kind } { more with functionKind := kind } := by
      refine ⟨?_, knows.known, knows.begun, knows.fewer⟩
      rw [knows.same]
    have walked := inside entered
    refine ⟨?_, walked.known, walked.begun, walked.fewer⟩
    unfold insideFunction
    rw [walked.same, knows.same]
  classScope inside r more knows := by
    have entered : KnowsMore { r with classKind := .inside } { more with classKind := .inside } := by
      refine ⟨?_, knows.known, knows.begun, knows.fewer⟩
      rw [knows.same]
    have walked := inside entered
    refine ⟨?_, walked.known, walked.begun, walked.fewer⟩
    unfold insideClass
    rw [walked.same, knows.same]

end KnowsMore

end ScopeScript.Resolver
