import ScopeScript.Proofs.Foresee.Rules

/-! Expressions are read on as far as the grammar goes on. Where one can end, what follows must not
begin with a token that would carry it on; each tier of operators rules out its own. -/
namespace ScopeScript
open Grammar Computability

namespace Parse
variable {n : Nat} {after : Language Kind} {expression : Parse Expr}

/-- A parser of expressions, wherever one can end. -/
def PredictsExpr (n : Nat) (expression : Parse Expr) : Prop :=
  ∀ after, [Open after] → Avoids after goesOn →
    Predicts n (Nonterminal.words .expression * after) after expression

/-- Literals, names and `this`. -/
def atoms : Ebnf :=
  .number + .string + .word .kwTrue + .word .kwFalse + .word .kwNil + .word .kwThis + .name

theorem single_atoms :
    Single (words atoms) fun k => (PrimaryStart.ofKind? k).isSome && k != .symbol .leftParen := by
  have each := (((((single_number.add single_string).add (single_token (.keyword .kwTrue))).add
    (single_token (.keyword .kwFalse))).add (single_token (.keyword .kwNil))).add
    (single_token (.keyword .kwThis))).add (single_token .identifier)
  simp only [atoms, words_add]
  convert each using 2 with k
  cases k with
  | symbol s => cases s <;> rfl
  | keyword w => cases w <;> rfl
  | _ => rfl

theorem words_primary : Nonterminal.words .primary = words atoms +
    words (.sign .leftParen) * (Nonterminal.words .expression * words (.sign .rightParen)) := by
  rw [words_phrase, rule, atoms]
  simp only [words_add, words_mul, mul_assoc]

theorem eq_leftParen_of_group {k : Kind} (found : PrimaryStart.ofKind? k = some .group) :
    k = .symbol .leftParen := by
  unfold PrimaryStart.ofKind? at found
  split at found <;> cases found
  rfl

theorem predicts_primary (inner : PredictsExpr n expression) [Open after] :
    Predicts (n + 1) (Nonterminal.words .primary * after) after (primary expression) := by
  intro c size
  refine foresees_takeIf size rfl (fun start l found => ?_) fun none => ?_
  · rw [words_primary, add_mul, residual_add, mul_assoc, mul_assoc]
    by_cases group : c.next = .symbol .leftParen
    · rw [group] at found ⊢
      cases found
      rw [single_atoms.residual_mul_eq_zero rfl, zero_add, residual_token_mul]
      refine (inner _ (avoids_token_mul rfl _)).bind fun e => predicts_expect nofun fun _ => ?_
      exact predicts_freshId fun _ => predicts_pure _
    · rw [single_atoms.residual_mul (by simp [found, group]), residual_token_mul_of_ne group,
        add_zero]
      cases start with
      | literal _ | this | name => exact predicts_freshId fun _ => predicts_pure _
      | group => exact absurd (eq_leftParen_of_group found) group
  · exact foresees_fail (residual_words_mul (by simp [first, none]) after) _

/-- What follows a callee or an object. -/
def suffixes : Ebnf :=
  .sign .leftParen * .optional (.phrase .arguments) * .sign .rightParen + .sign .dot * .name

theorem words_suffixes_mul (b : Language Kind) : words suffixes * b =
    words (.sign .leftParen) * (words (.sign .rightParen) * b +
      Nonterminal.words .expression *
        ((words (.sign .comma) * Nonterminal.words .expression)∗ *
          (words (.sign .rightParen) * b))) +
      words (.sign .dot) * (words .name * b) := by
  have arguments : Nonterminal.words .arguments = Nonterminal.words .expression *
      (words (.sign .comma) * Nonterminal.words .expression)∗ := by
    rw [words_phrase, rule]
    simp only [words_mul, words_many]
  simp only [suffixes, words_add, words_mul, words_optional, arguments, add_mul, mul_assoc, one_mul]

/-- Nothing follows if the next token is none that could. -/
theorem residual_suffixes_mul_eq_zero {k : Kind} (noCall : k ≠ .symbol .leftParen)
    (noDot : k ≠ .symbol .dot) (b : Language Kind) : residual k (words suffixes * b) = 0 := by
  rw [words_suffixes_mul, residual_add, residual_token_mul_of_ne noCall,
    residual_token_mul_of_ne noDot, add_zero]

theorem predicts_calls (inner : PredictsExpr n expression) {bound : Nat} (within : bound ≤ n)
    [Open after] (opens : residual (.symbol .leftParen) after = 0)
    (dots : residual (.symbol .dot) after = 0) (subject : Expr) :
    Predicts bound ((words suffixes)∗ * after) after (calls expression bound subject) := by
  induction bound generalizing subject with
  | zero =>
    intro c size
    have ended := c.next_of_length_le_zero size
    rw [kstar_mul]
    refine (foresees_pure subject).add (residual_suffixes_mul_eq_zero ?_ ?_ _)
    · rw [ended]
      nofun
    · rw [ended]
      nofun
  | succ bound ih =>
    have again := ih (Nat.le_of_succ_le within)
    intro c size
    rw [kstar_mul]
    refine foresees_accept size nofun (fun _ => ?_) fun noCall => ?_
    · rw [words_suffixes_mul, residual_add, opens, zero_add, residual_add, residual_token_mul,
        residual_token_mul_of_ne (by decide), add_zero]
      have arguments : Predicts bound _ ((words suffixes)∗ * after)
          (parenthesized expression .tooManyArguments .argumentsClose) :=
        predicts_parenthesized
          (fun after _ apart => (inner after apart).weaken (Nat.le_of_succ_le within)) rfl
          fun b => residual_words_mul rfl b
      exact arguments.bind fun r => predicts_freshId fun id => again _
    · refine foresees_accept size nofun (fun _ => ?_) fun noDot => ?_
      · rw [words_suffixes_mul, residual_add, dots, zero_add, residual_add,
          residual_token_mul_of_ne (by decide), zero_add, residual_token_mul]
        exact predicts_expect nofun fun property => predicts_freshId fun id => again _
      · exact (foresees_pure subject).add (residual_suffixes_mul_eq_zero noCall noDot _)

theorem words_call : Nonterminal.words .call = Nonterminal.words .primary * (words suffixes)∗ := by
  rw [words_phrase, rule, words_mul, words_many]
  rfl

/-! Signs in front of an operand. -/

def prefixes : Ebnf := .sign .bang + .sign .minus

theorem single_prefixes : Single (words prefixes) fun k => (UnaryOp.ofKind? k).isSome := by
  have each := (single_token (.symbol .bang)).add (single_token (.symbol .minus))
  rw [prefixes, words_add]
  convert each using 2 with k
  cases k with
  | symbol s => cases s <;> rfl
  | keyword w => cases w <;> rfl
  | _ => rfl

/-- Any number of signs and a call: the rule calls itself, the parser goes round in a loop. -/
theorem words_unary :
    Nonterminal.words .unary = (words prefixes)∗ * Nonterminal.words .call := by
  have none : [] ∉ words prefixes := by
    rw [single_prefixes]
    rintro ⟨k, same, -⟩
    cases same
  rw [← Language.self_eq_mul_add_iff none]
  conv_lhs => rw [words_phrase, rule, words_add, words_mul]
  rfl

theorem predicts_signs {bound : Nat} (unsigned : Avoids after fun k => (UnaryOp.ofKind? k).isSome) :
    Predicts bound ((words prefixes)∗ * after) after (signs bound) := by
  induction bound with
  | zero =>
    intro c size
    have ended := c.next_of_length_le_zero size
    rw [kstar_mul]
    refine (foresees_pure []).add (single_prefixes.residual_mul_eq_zero ?_ _)
    rw [ended]
    rfl
  | succ bound ih =>
    intro c size
    rw [kstar_mul]
    refine foresees_takeIf size rfl (fun op l found => ?_) fun none => ?_
    · have sign : (UnaryOp.ofKind? c.next).isSome = true := by rw [found]; rfl
      rw [residual_add, unsigned.residual_eq sign, zero_add, single_prefixes.residual_mul sign]
      exact ih.bind fun rest => predicts_pure _
    · refine (foresees_pure []).add (single_prefixes.residual_mul_eq_zero ?_ _)
      rw [none]
      rfl

theorem predicts_signed (signs : List (UnaryOp × Lexeme)) (operand : Expr) :
    Predicts n after after (signed signs operand) := by
  induction signs with
  | nil => exact predicts_pure _
  | cons sign rest ih => exact ih.bind fun inner => predicts_freshId fun _ => predicts_pure _

theorem predicts_unary (inner : PredictsExpr n expression)
    (reads : ReadsExpr .expression expression) [Open after]
    (opens : residual (.symbol .leftParen) after = 0)
    (dots : residual (.symbol .dot) after = 0) :
    Predicts (n + 1) (Nonterminal.words .unary * after) after (unary n expression) := by
  have unsigned : Avoids (Nonterminal.words .call * after) fun k => (UnaryOp.ofKind? k).isSome := by
    refine ((starts_words .call).mul after).avoids fun k primary => ?_
    cases k with
    | symbol s => cases s <;> first | rfl | cases primary
    | _ => rfl
  rw [words_unary, mul_assoc]
  refine (predicts_signs unsigned).bind fun before => ?_
  rw [words_call, mul_assoc]
  have nonempty := (reads_primary reads).imp fun _ _ _ derives => derives.length_pos
  refine (predicts_primary inner).bind_succ nonempty fun subject => ?_
  refine (predicts_calls inner (Nat.le_refl n) opens dots subject).bind fun operand => ?_
  exact predicts_signed before operand

/-! Operators between operands. -/

end Parse

namespace Grammar.Tier

def phrase : Tier → Nonterminal
  | logicOr => .logicOr
  | logicAnd => .logicAnd
  | equality => .equality
  | comparison => .comparison
  | term => .term
  | factor => .factor

def inner : Tier → Nonterminal
  | logicOr => .logicAnd
  | logicAnd => .equality
  | equality => .comparison
  | comparison => .term
  | term => .factor
  | factor => .unary

def operators : Tier → Ebnf
  | logicOr => .word .kwOr
  | logicAnd => .word .kwAnd
  | equality => .sign .bangEqual + .sign .equalEqual
  | comparison => .sign .greater + .sign .greaterEqual + .sign .less + .sign .lessEqual
  | term => .sign .minus + .sign .plus
  | factor => .sign .slash + .sign .star

theorem words_phrase (t : Tier) :
    t.phrase.words = t.inner.words * (words t.operators * t.inner.words)∗ := by
  have isRule : rule t.phrase = .chain t.inner t.operators := by cases t <;> rfl
  rw [words_rule isRule, words_chain]

theorem single_operators (t : Tier) : Single (words t.operators) fun k => (t.level k).isSome := by
  intro w
  constructor
  · cases t with
    | logicOr | logicAnd => exact fun mem => ⟨_, mem_words_token.mp mem, rfl⟩
    | equality | term | factor =>
      rw [operators, words_add]
      rintro (mem | mem) <;> exact ⟨_, mem_words_token.mp mem, rfl⟩
    | comparison =>
      rw [operators]
      simp only [words_add]
      rintro (((mem | mem) | mem) | mem) <;> exact ⟨_, mem_words_token.mp mem, rfl⟩
  · rintro ⟨k, rfl, some⟩
    obtain ⟨op, found⟩ := Option.isSome_iff_exists.mp some
    cases operator_of_level found with
    | or | and => exact .token _
    | notEqual | subtract | divide => exact .left (.token _)
    | equal | add | multiply => exact .right (.token _)
    | greater => exact .left (.left (.left (.token _)))
    | greaterEqual => exact .left (.left (.right (.token _)))
    | less => exact .left (.right (.token _))
    | lessEqual => exact .right (.token _)

end Grammar.Tier

namespace Parse
variable {n : Nat} {after : Language Kind} {t : Tier} {ts : List Tier} {operand : Parse Expr}

/-- A parser of a phrase that goes on with the operators of these tiers. -/
def PredictsUntil (n : Nat) (phrase : Nonterminal) (ts : List Tier) (p : Parse Expr) : Prop :=
  ∀ after, [Open after] → Avoids after (operandGoesOn ts) →
    Predicts n (phrase.words * after) after p

/-- An operator of one tier neither begins what follows a call nor is one of another tier. -/
theorem operandGoesOn_eq_false {k : Kind} (some : (t.level k).isSome = true) (new : t ∉ ts) :
    operandGoesOn ts k = false := by
  obtain ⟨op, found⟩ := Option.isSome_iff_exists.mp some
  have others : ts.any (fun t => (t.level k).isSome) = false := by
    rw [List.any_eq_false]
    intro t' mem taken
    obtain ⟨op', found'⟩ := Option.isSome_iff_exists.mp taken
    have same : t = t' := by
      generalize k = k' at found found'
      cases operator_of_level found <;> cases operator_of_level found' <;> rfl
    exact new (same ▸ mem)
  rw [operandGoesOn, others, Bool.or_false]
  cases operator_of_level found <;> rfl

theorem operandGoesOn_cons (t : Tier) (ts : List Tier) (k : Kind) :
    operandGoesOn (t :: ts) k = ((t.level k).isSome || operandGoesOn ts k) := by
  simp [operandGoesOn, Bool.or_left_comm]

/-- What follows an operand: an operator of the tier, or what follows the whole. -/
theorem avoids_round (new : t ∉ ts) (avoids : Avoids after (operandGoesOn (t :: ts))) :
    Avoids ((words t.operators * t.inner.words)∗ * after) (operandGoesOn ts) := by
  have ends : Avoids after (operandGoesOn ts) := avoids.imp fun k taken => by
    rw [operandGoesOn_cons, taken, Bool.or_true]
  exact ends.kstar_mul (t.single_operators.starts.mul t.inner.words) fun k some =>
    operandGoesOn_eq_false some new

section Chain
variable (operands : PredictsUntil (n + 1) t.inner ts operand) (new : t ∉ ts)
include operands new

theorem predicts_chainFrom {bound : Nat} (within : bound ≤ n + 1) [Open after]
    (avoids : Avoids after (operandGoesOn (t :: ts))) (left : Expr) :
    Predicts bound ((words t.operators * t.inner.words)∗ * after) after
      (chainFrom t.level operand bound left) := by
  induction bound generalizing left with
  | zero =>
    intro c size
    have ended := c.next_of_length_le_zero size
    rw [kstar_mul, mul_assoc]
    refine (foresees_pure left).add (t.single_operators.residual_mul_eq_zero ?_ _)
    rw [ended]
    cases t <;> rfl
  | succ bound ih =>
    intro c size
    rw [kstar_mul, mul_assoc]
    refine foresees_takeIf size (by cases t <;> rfl) (fun op l found => ?_) fun none => ?_
    · have sign : (t.level c.next).isSome = true := by rw [found]; rfl
      have stops : residual c.next after = 0 :=
        avoids.residual_eq (by rw [operandGoesOn_cons, sign, Bool.true_or])
      rw [residual_add, stops, zero_add, t.single_operators.residual_mul sign]
      have right := (operands _ (avoids_round new avoids)).weaken
        (Nat.le_of_succ_le within)
      exact right.bind fun right => predicts_freshId fun id => ih (Nat.le_of_succ_le within) _
    · refine (foresees_pure left).add (t.single_operators.residual_mul_eq_zero ?_ _)
      rw [none]
      rfl

theorem predicts_chain (reads : ReadsExpr t.operand operand) :
    PredictsUntil (n + 1) t.phrase (t :: ts) (chain n t.level operand) := by
  intro after _ avoids
  have nonempty := reads.imp fun _ _ _ derives => derives.length_pos
  rw [t.words_phrase, mul_assoc]
  refine (operands _ (avoids_round new avoids)).bind_succ nonempty fun left => ?_
  exact predicts_chainFrom operands new (Nat.le_succ n) avoids left

end Chain

variable {expression : Parse Expr}

theorem predicts_operation (inner : PredictsExpr n expression)
    (reads : ReadsExpr .expression expression) :
    PredictsUntil (n + 1) .logicOr [.logicOr, .logicAnd, .equality, .comparison, .term, .factor]
      (operation n expression) := by
  have unary : PredictsUntil (n + 1) .unary [] (unary n expression) := fun after _ avoids =>
    predicts_unary inner reads (avoids.residual_eq rfl) (avoids.residual_eq rfl)
  have factor := predicts_chain (t := .factor) unary nofun (reads_unary reads n)
  have factor' := reads_chain (t := .factor) (reads_unary reads n) n
  have term := predicts_chain (t := .term) factor (by simp) factor'
  have term' := reads_chain (t := .term) factor' n
  have comparison := predicts_chain (t := .comparison) term (by simp) term'
  have comparison' := reads_chain (t := .comparison) term' n
  have equality := predicts_chain (t := .equality) comparison (by simp) comparison'
  have equality' := reads_chain (t := .equality) comparison' n
  have logicAnd := predicts_chain (t := .logicAnd) equality (by simp) equality'
  have logicAnd' := reads_chain (t := .logicAnd) equality' n
  exact predicts_chain (t := .logicOr) logicAnd (by simp) logicAnd'

theorem predicts_assignment (inner : PredictsExpr n expression)
    (reads : ReadsExpr .expression expression) :
    PredictsExpr (n + 1) (assignment n expression) := by
  intro after _ avoids
  -- both rules begin with an operation, and it is read before it is known which one applies
  have target : Nonterminal.words .expression * after = Nonterminal.words .logicOr *
      (after + words (.sign .equal) * (Nonterminal.words .expression * after)) := by
    have same : Nonterminal.words .expression = Nonterminal.words .assignment := words_phrase _
    conv_lhs => rw [same, words_phrase, rule, words_add, words_mul, words_mul]
    rw [same, add_mul, add_comm, mul_add, mul_assoc, mul_assoc]
  rw [target]
  refine (predicts_operation inner reads _ ?_).bind fun target c size => ?_
  · refine .add (avoids.imp fun k taken => ?_) (avoids_token_mul rfl _)
    rw [goesOn, taken, Bool.true_or]
  · refine foresees_take? size nofun (fun sign _ => ?_) fun other => ?_
    · rw [residual_add, avoids.residual_eq rfl, zero_add, residual_token_mul]
      refine (inner after avoids).bind fun value => ?_
      cases target with
      | var id name => exact predicts_freshId fun _ => predicts_pure _
      | get id object property => exact predicts_freshId fun _ => predicts_pure _
      | literal _ _ | group _ _ | this _ _ | assign _ _ _ | unary _ _ _ _ | binary _ _ _ _ _
      | logical _ _ _ _ _ | call _ _ _ _ | set _ _ _ _ => exact fun _ _ => .inl rfl
    · exact (foresees_pure _).add (residual_token_mul_of_ne other _)

theorem predicts_expression : PredictsExpr n (Parse.expression n) := by
  induction n with
  | zero =>
    intro after _ _ c size
    have ended := c.next_of_length_le_zero size
    refine foresees_fail (residual_words_mul ?_ after) _
    rw [ended]
    rfl
  | succ n ih => exact predicts_assignment ih (reads_expression n)

end Parse
end ScopeScript
