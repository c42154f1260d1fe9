import ScopeScript.Proofs.Foresee.Statement
import ScopeScript.Proofs.Parse.Loop

/-! The first syntax error is at the first token with which no program can go on. -/
namespace ScopeScript
open Grammar Computability

/-- Tokens with which some program begins. -/
def Viable (ts : List Token) : Prop :=
  ∃ more, ts.map (·.kind) ++ more ∈ Nonterminal.words .program

theorem Viable.of_prefix {ts us : List Token} (viable : Viable us) (front : ts <+: us) :
    Viable ts := by
  obtain ⟨vs, rfl⟩ := front
  obtain ⟨more, mem⟩ := viable
  rw [List.map_append, List.append_assoc] at mem
  exact ⟨_, mem⟩

/-- There is only one place where the tokens cease to be the beginning of a program. -/
theorem viable_take_iff {tokens : List Token} {k : Nat} (until_ : Viable (tokens.take k))
    (beyond : ¬ Viable (tokens.take (k + 1))) (i : Nat) :
    Viable (tokens.take i) ∧ ¬ Viable (tokens.take (i + 1)) ↔ i = k := by
  constructor
  · rintro ⟨until', beyond'⟩
    rcases Nat.lt_trichotomy i k with less | same | greater
    · exact absurd (until_.of_prefix (List.take_prefix_take_left less)) beyond'
    · exact same
    · exact absurd (until'.of_prefix (List.take_prefix_take_left greater)) beyond
  · rintro rfl
    exact ⟨until_, beyond⟩

/-! Declaration after declaration. -/

theorem words_program : Nonterminal.words .program =
    Nonterminal.words .declaration * Nonterminal.words .program + words (.token .endOfInput) := by
  have rounds : Nonterminal.words .program =
      (Nonterminal.words .declaration)∗ * words (.token .endOfInput) := by
    rw [words_phrase, rule, words_mul, words_many]
  rw [rounds, add_comm, ← kstar_mul]

namespace Parse
variable {c c' : Cursor} {n limit : Nat}

/-- In front of a declaration and behind it, the rest of a program is to come. -/
theorem foresees_declaration (inner : ∀ t ∈ c.rest, t.kind ≠ .endOfInput) (some : c.rest ≠ [])
    (size : c.rest.length ≤ n) :
    Foresees (Nonterminal.words .program) (Nonterminal.words .program) c (declaration n c) := by
  obtain ⟨t, rest, here⟩ := List.exists_cons_of_ne_nil some
  have more : c.next ≠ .endOfInput := by
    rw [c.next_cons here]
    exact inner t (here ▸ List.mem_cons_self)
  have noElse : TakesElse (Nonterminal.words .program) := by
    refine takesElse_of_residual ?_
    rw [← mul_one (Nonterminal.words .program)]
    exact residual_words_mul rfl 1
  have round := predicts_statement_declaration.2 _ noElse c size
  rw [words_program]
  nth_rewrite 2 [← words_program]
  refine round.add ?_
  rw [← mul_one (words _)]
  exact residual_token_mul_of_ne more 1

theorem foresees_builds {ss : List Stmt} (builds : Cursor.Builds limit c ss c')
    (inner : ∀ t ∈ c.rest, t.kind ≠ .endOfInput) :
    (∀ t ∈ c'.rest, t.kind ≠ .endOfInput) ∧
      Foresees (Nonterminal.words .program) (Nonterminal.words .program) c (.ok ss c') := by
  induction builds with
  | none c => exact ⟨inner, foresees_pure _⟩
  | @more n c c₁ c₂ s ss _ some size ok _ ih =>
    have round := foresees_declaration inner some size
    rw [ok] at round
    have ⟨read, passes, _⟩ := round
    obtain ⟨inner₂, later⟩ := ih (passes.forall_rest inner)
    exact ⟨inner₂, round.trans later⟩

end Parse

/-- The tokens of a buffer up to where a cursor stands, and the one there. -/
theorem TokenBuffer.exists_next {tokens read : List Token} {nextId : ExprId} {c : Cursor}
    (passes : (Cursor.ofTokens tokens nextId).Passes read c)
    (inner : ∀ t ∈ c.rest, t.kind ≠ .endOfInput) :
    (ofTokens tokens nextId).tokens.take read.length = read ∧
      ∃ t, (ofTokens tokens nextId).tokens[read.length]? = some t ∧ t.kind = c.next ∧
        t.place = c.place := by
  obtain ⟨e, more, split, isEnd, onLine⟩ := ofTokens_split tokens nextId
  rw [passes.rest, List.append_assoc] at split
  rw [split, List.take_left, List.getElem?_append_right (Nat.le_refl _), Nat.sub_self]
  refine ⟨rfl, ?_⟩
  cases here : c.rest with
  | nil =>
    refine ⟨e, rfl, isEnd.trans (c.next_nil here).symm, ?_⟩
    rw [Token.place, if_pos isEnd, Cursor.place, here, passes.endLine, onLine]
  | cons t rest =>
    refine ⟨t, rfl, (c.next_cons here).symm, ?_⟩
    rw [Token.place, if_neg (inner t (here ▸ List.mem_cons_self)), Cursor.place, here]

/-- The tokens read before an error begin a program, and with the next one they do not. -/
theorem viable_until_error {c c₁ c₂ : Cursor} {limit n : Nat} {ss : List Stmt} {e : ParseError}
    (inner : ∀ t ∈ c.rest, t.kind ≠ .endOfInput) (builds : Cursor.Builds limit c ss c₁)
    (some : c₁.rest ≠ []) (size : c₁.rest.length ≤ n)
    (failed : Parse.declaration n c₁ = .error e c₂) (within : e.cause.beyondGrammar = false) :
    ∃ read, c.Passes read c₂ ∧ e.place = c₂.place ∧ Viable read ∧
      ∀ t : Token, t.kind = c₂.next → ¬ Viable (read ++ [t]) := by
  obtain ⟨inner₁, front⟩ := Parse.foresees_builds builds inner
  have last := Parse.foresees_declaration inner₁ some size
  rw [failed] at last
  obtain beyond | ⟨read, passes, place, viable, impossible⟩ := front.trans last
  · rw [within] at beyond
    cases beyond
  · refine ⟨read, passes, place, viable, ?_⟩
    rintro t next ⟨more, mem⟩
    rw [List.map_append, List.append_assoc] at mem
    exact impossible more (next ▸ mem)

/-- The first error, unless it is about the target of an assignment or the length of a list, is
about the first token with which no program goes on. That is the one behind the tokens that have
been read when the complaint comes: these are the beginning of a program of the grammar, with the
next one they are not, and nowhere else in the input do they cease to be. -/
theorem first_error_at_impossible_token (tokens : List Token) (nextId : ExprId) {e : ParseError}
    {later : List ParseError} (errors : (parseTokens tokens nextId).errors = e :: later)
    (target : e.cause ≠ .assignmentTarget) (arguments : e.cause ≠ .tooManyArguments)
    (parameters : e.cause ≠ .tooManyParameters) :
    let start := Cursor.ofTokens tokens nextId
    let input := (TokenBuffer.ofTokens tokens nextId).tokens
    ∃ ss c₁ c₂ n read, Cursor.Builds start.rest.length start ss c₁ ∧ c₁.rest.length ≤ n ∧
      Parse.declaration n c₁ = .error e c₂ ∧ start.Passes read c₂ ∧
      (∃ t, input[read.length]? = some t ∧ e.place = t.place) ∧
      ∀ i, Viable (input.take i) ∧ ¬ Viable (input.take (i + 1)) ↔ i = read.length := by
  intro start input
  have inner : ∀ t ∈ start.rest, t.kind ≠ .endOfInput := fun t mem => by
    simpa using List.mem_takeWhile_imp mem
  have within : e.cause.beyondGrammar = false := by
    cases cause : e.cause <;> first | rfl | contradiction
  obtain ⟨ss, c₁, c₂, n, builds, -, some, size, failed, -⟩ :=
    first_error (Nat.le_refl _) (Nat.le_refl _) errors
  obtain ⟨read, passes, place, viable, impossible⟩ :=
    viable_until_error inner builds some size failed within
  obtain ⟨before, t, found, kind, here⟩ :=
    TokenBuffer.exists_next passes (passes.forall_rest inner)
  refine ⟨ss, c₁, c₂, n + 1, read, builds, size, failed, passes, ⟨t, found, ?_⟩, ?_⟩
  · exact place.trans here.symm
  · refine viable_take_iff (by rwa [before]) ?_
    rw [List.take_add_one, before, found]
    exact impossible t kind

/-- Each of two conditions takes its `else`. Behind the second one a statement must begin. -/
theorem first_error_behind_else :
    let source := tokens "if (a) if (b) c; else d; else\n;"
    (parseTokens source 0).errors = [⟨.expression, .ofLexeme ⟨";", 2⟩⟩] ∧
      Viable (source.take 14) ∧ ¬ Viable (source.take 15) := by
  intro source
  have errors : (parseTokens source 0).errors = [⟨.expression, .ofLexeme ⟨";", 2⟩⟩] := by
    decide +kernel
  have plain : (TokenBuffer.ofTokens source 0).tokens = source := by decide +kernel
  obtain ⟨ss, c₁, c₂, n, read, -, -, -, -, ⟨t, found, place⟩, only⟩ :=
    first_error_at_impossible_token source 0 errors nofun nofun nofun
  rw [plain] at found only
  have last : read.length = 14 := by
    have unique : ∀ i < source.length, source[i]?.map Token.place = some (.ofLexeme ⟨";", 2⟩) →
        i = 14 := by
      decide +kernel
    refine unique _ (List.getElem?_eq_some_iff.mp found).1 ?_
    rw [found]
    exact congrArg some place.symm
  exact ⟨errors, (only 14).mpr last.symm⟩

end ScopeScript
