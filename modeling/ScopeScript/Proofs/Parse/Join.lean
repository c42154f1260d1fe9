import ScopeScript.Proofs.Checks
import ScopeScript.Proofs.Parse.Carry
import ScopeScript.Proofs.Token.Join

/-! Parsing a source in two parts. The statements of the first part do not look into the second:
only an `else` there could be taken for theirs, and no statement begins with one. -/
namespace ScopeScript
namespace Parse

variable {α β : Type} {kind : Kind}

/-- No token of this kind can be the first that `p` reads. -/
def Refuses (kind : Kind) (p : Parse α) : Prop :=
  ∀ c, c.rest.head?.map (·.kind) = some kind → ∀ a c', p c ≠ .ok a c'

theorem refuses_fail (cause : ParseCause) : Refuses kind (fail cause : Parse α) := nofun

theorem Refuses.bind {p : Parse α} (refuses : Refuses kind p) (next : α → Parse β) :
    Refuses kind (p >>= next) := by
  intro c head b c' ok
  obtain ⟨a, d, left, _⟩ := bind_eq_ok.mp ok
  exact refuses c head a d left

theorem takeIf_of_head {select : Kind → Option α} (blind : select kind = none) {c : Cursor}
    (head : c.rest.head?.map (·.kind) = some kind) : takeIf select c = .ok none c := by
  cases rest : c.rest with
  | nil => simp [rest] at head
  | cons t others =>
    have here : t.kind = kind := by simpa [rest] using head
    simp only [takeIf, rest, here, blind]

/-- A token that is not of the right kind is left for what follows. -/
theorem refuses_takeIf {select : Kind → Option α} {next : Option (α × Lexeme) → Parse β}
    (blind : select kind = none) (refuses : Refuses kind (next none)) :
    Refuses kind (takeIf select >>= next) := by
  intro c head b c' ok
  obtain ⟨a, d, left, right⟩ := bind_eq_ok.mp ok
  rw [takeIf_of_head blind head] at left
  cases left
  exact refuses c head b c' right

theorem refuses_primary (expression : Parse Expr) :
    Refuses (.keyword .kwElse) (primary expression) :=
  refuses_takeIf rfl (refuses_fail _)

theorem refuses_unary (bound : Nat) (expression : Parse Expr) :
    Refuses (.keyword .kwElse) (unary bound expression) := by
  intro c head b c' ok
  obtain ⟨before, d, left, right⟩ := bind_eq_ok.mp ok
  obtain ⟨sign, d', taken, rest⟩ := bind_eq_ok.mp left
  rw [takeIf_of_head rfl head] at taken
  cases taken
  cases rest
  exact (refuses_primary expression).bind _ c head b c' right

theorem refuses_operation (bound : Nat) (expression : Parse Expr) :
    Refuses (.keyword .kwElse) (operation bound expression) := by
  unfold operation
  induction Level.all with
  | nil => exact refuses_unary bound expression
  | cons level rest ih => exact ih.bind _

theorem refuses_expression (bound : Nat) : Refuses (.keyword .kwElse) (expression bound) := by
  cases bound with
  | zero => exact refuses_fail _
  | succ bound => exact (refuses_operation bound _).bind _

theorem refuses_declaration (bound : Nat) : Refuses (.keyword .kwElse) (declaration bound) := by
  cases bound with
  | zero => exact refuses_fail _
  | succ bound =>
    refine refuses_takeIf rfl (refuses_takeIf rfl ?_)
    exact (refuses_expression (bound + 1)).bind _

end Parse

/-- A program without errors does not begin with an `else`. -/
theorem head_ne_else_of_clean {bound : Nat} {c : Cursor} (size : c.rest.length ≤ bound)
    (clean : (parseFrom bound c).errors = []) :
    ∀ t ∈ c.rest.head?, t.kind ≠ .keyword .kwElse := by
  intro t head isElse
  have more : c.rest ≠ [] := by
    rintro empty
    simp [empty] at head
  obtain ⟨bound, rfl⟩ : ∃ b, bound = b + 1 := by
    have positive := List.length_pos_iff.mpr more
    exact ⟨bound - 1, by omega⟩
  obtain ⟨s, c', ok⟩ := declaration_of_clean more clean
  refine Parse.refuses_declaration (bound + 1) c ?_ s c' ok
  rw [Option.mem_def.mp head, Option.map_some, isElse]

theorem parseTokens_tokens (source : String) (nextId : ExprId) :
    parseTokens (tokens source) nextId = parseFrom (innerTokens source).length
      ⟨innerTokens source, 1 + lineBreaks source, nextId⟩ := by
  rw [parseTokens, ofTokens_tokens]

/-- Tokens on other lines give the same statements on other lines. -/
theorem parseFrom_lines {bound bound' : Nat} {ts : List Token} {endLine next : Nat}
    {nextId : ExprId} {program : List Stmt} (size : ts.length ≤ bound) (le : bound ≤ bound')
    (parsed : parseFrom bound ⟨ts, endLine, nextId⟩ = ⟨program, [], next⟩) (line : Nat → Nat)
    (endLine' : Nat) :
    parseFrom bound' ⟨ts.map (Token.relabel (.lines line)), endLine', nextId⟩ =
      ⟨Stmt.relabelEach (.lines line) program, [], next⟩ := by
  let v : Carrier := ⟨0, 0, line, [], endLine', nofun⟩
  have moved : v.cursor ⟨ts, endLine, nextId⟩ =
      ⟨ts.map (Token.relabel (.lines line)) ++ [], endLine', nextId⟩ := rfl
  have clean := congrArg Parsed.errors parsed
  have carried := parseFrom_carry_whole (v := v) (c := ⟨ts, endLine, nextId⟩) rfl size le
    (Nat.zero_le _) clean
  rw [parsed, moved, List.append_nil] at carried
  exact carried

/-- All lines of a program are lines of tokens of its source: a change that leaves these alone
leaves the program alone. -/
theorem parseSource_relabel_eq {nextId next : ExprId} {source : String} {program : List Stmt}
    (parsed : parseSource nextId source = (.ok program, next)) {line : Nat → Nat}
    (fixed : ∀ t ∈ tokens source, line t.line = t.line) :
    Stmt.relabelEach (.lines line) program = program := by
  obtain ⟨_, parsed⟩ := parseSource_eq_ok.mp parsed
  rw [parseTokens_tokens] at parsed
  have same : (innerTokens source).map (Token.relabel (.lines line)) = innerTokens source := by
    refine (List.map_congr_left fun t member => ?_).trans (List.map_id' _)
    have inner : t ∈ tokens source := by
      rw [tokens_eq]
      exact List.mem_append_left _ member
    exact congrArg (fun here => Token.mk ⟨t.text, here⟩ t.kind) (fixed t inner)
  have again := parseFrom_lines (Nat.le_refl _) (Nat.le_refl _) parsed line (1 + lineBreaks source)
  rw [same, parsed] at again
  exact (Parsed.mk.inj again).1.symm

/-- A program without errors in front of tokens that do not begin with an `else`. -/
theorem parseFrom_append {first behind : List Token} {endLine : Nat} {nextId middle : ExprId}
    {program : List Stmt} (noElse : ∀ t ∈ behind.head?, t.kind ≠ .keyword .kwElse)
    (parsed : parseFrom first.length ⟨first, endLine, nextId⟩ = ⟨program, [], middle⟩)
    (endLine' : Nat) :
    ∃ bound, behind.length ≤ bound ∧
      parseFrom (first ++ behind).length ⟨first ++ behind, endLine', nextId⟩ =
        let more := parseFrom bound ⟨behind, endLine', middle⟩
        { more with statements := program ++ more.statements } := by
  let v : Carrier := ⟨0, 0, fun line => line, behind, endLine', noElse⟩
  have same : v.cursor ⟨first, endLine, nextId⟩ = ⟨first.map id ++ behind, endLine', nextId⟩ := rfl
  rw [List.map_id] at same
  have longer : first.length ≤ (first ++ behind).length := by simp
  have fits : (v.cursor ⟨first, endLine, nextId⟩).rest.length ≤ (first ++ behind).length :=
    Nat.le_of_eq (by rw [same])
  have clean := congrArg Parsed.errors parsed
  obtain ⟨bound, room, carried⟩ :=
    parseFrom_carry (v := v) (Nat.le_refl _) longer fits (Nat.zero_le _) clean
  have ids : v.relabel.id middle = middle := rfl
  have front : program.map (Stmt.relabel v.relabel) = program := by
    rw [← Stmt.relabelEach_eq_map]
    exact Stmt.relabelEach_refl program
  rw [same, parsed] at carried
  dsimp only at carried
  rw [ids, front] at carried
  exact ⟨bound, room, carried⟩

/-- Two sources with a line break between them. -/
theorem parseSource_join {nextId middle next : ExprId} {first second : String}
    {program others : List Stmt} (parsed : parseSource nextId first = (.ok program, middle))
    (parsed' : parseSource middle second = (.ok others, next)) :
    parseSource nextId (first ++ "\n" ++ second) =
      (.ok (program ++ Stmt.relabelEach (.down (1 + lineBreaks first)) others), next) := by
  obtain ⟨lexed, parsed⟩ := parseSource_eq_ok.mp parsed
  obtain ⟨lexed', parsed'⟩ := parseSource_eq_ok.mp parsed'
  refine parseSource_eq_ok.mpr ⟨lexicalErrors_join lexed lexed', ?_⟩
  rw [parseTokens_tokens] at parsed parsed' ⊢
  rw [innerTokens_join lexed]
  have clean' := congrArg Parsed.errors parsed'
  have begins := head_ne_else_of_clean (c := ⟨innerTokens second, _, _⟩) (Nat.le_refl _) clean'
  have noElse : ∀ t ∈ ((innerTokens second).map
      (Token.relabel (.down (1 + lineBreaks first)))).head?, t.kind ≠ .keyword .kwElse := by
    intro t head
    rw [List.head?_map] at head
    obtain ⟨u, held, rfl⟩ := Option.map_eq_some_iff.mp head
    exact begins u held
  obtain ⟨bound, room, whole⟩ := parseFrom_append noElse parsed
    (1 + lineBreaks (first ++ "\n" ++ second))
  rw [List.length_map] at room
  have moved : parseFrom bound ⟨(innerTokens second).map
      (Token.relabel (.down (1 + lineBreaks first))),
        1 + lineBreaks (first ++ "\n" ++ second), middle⟩ =
      ⟨Stmt.relabelEach (.down (1 + lineBreaks first)) others, [], next⟩ :=
    parseFrom_lines (Nat.le_refl _) room parsed' _ _
  rw [whole, moved]

end ScopeScript
