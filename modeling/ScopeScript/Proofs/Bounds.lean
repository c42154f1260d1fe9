import ScopeScript.Proofs.Parse.Loop

/-! Parsing ends and stays within the buffer, whatever the tokens are. -/
namespace ScopeScript

/-- A buffer of a token list as it is, from any place up to its end of input. -/
theorem shows_plain (tokens : List Token) (b : TokenBuffer)
    (same : b.tokens = (TokenBuffer.ofTokens tokens b.nextId).tokens)
    (inside : b.current ≤ (Cursor.ofTokens tokens b.nextId).rest.length) :
    ∃ v : View, v.relabel = .refl ∧ v.left = [] ∧
      v.total = (Cursor.ofTokens tokens b.nextId).rest.length ∧
      v.Shows { Cursor.ofTokens tokens b.nextId with
        rest := (Cursor.ofTokens tokens b.nextId).rest.drop b.current } b := by
  obtain ⟨v, relabel, whole, total, shows_⟩ :=
    shows_ofTokens tokens b.nextId 0 (fun line => line) inside
  refine ⟨v, relabel, whole, total, ?_⟩
  have plain : { (TokenBuffer.ofTokens tokens b.nextId).relabel ⟨(· + 0), fun line => line⟩ with
      current := b.current } = b := by
    have tokens_ : (TokenBuffer.ofTokens tokens b.nextId).tokens.map
        (Token.relabel ⟨(· + 0), fun line => line⟩) = b.tokens := (List.map_id' _).trans same.symm
    rw [TokenBuffer.relabel, tokens_]
    rfl
  rwa [plain] at shows_

/-- A buffer that shows a cursor's tokens with an end of input behind them. -/
theorem shows_cursor (c : Cursor) (inner : ∀ t ∈ c.rest, t.kind ≠ .endOfInput) (shift : ExprId) :
    ∃ v : View, v.relabel = ⟨(· + shift), fun line => line⟩ ∧ v.left = [] ∧
      v.Shows c ⟨c.rest ++ [⟨⟨"", c.endLine⟩, .endOfInput⟩], 0, c.nextId + shift⟩ := by
  refine ⟨⟨c.rest ++ [⟨⟨"", c.endLine⟩, .endOfInput⟩], c.rest.length, shift, fun line => line,
    c.endLine, [], [⟨⟨"", c.endLine⟩, .endOfInput⟩]⟩, rfl, rfl, ?_⟩
  refine ⟨⟨rfl, rfl⟩, rfl, Nat.zero_add _, rfl, rfl, c.rest, (List.append_nil _).symm, inner, ?_⟩
  rw [List.drop_zero]
  exact congrArg (· ++ _) (List.map_id' _).symm

/-- The errors of a program depend neither on the numbers of its nodes nor on the bound. -/
theorem parseFrom_errors_eq {c c' : Cursor} {bound bound' : Nat}
    (inner : ∀ t ∈ c.rest, t.kind ≠ .endOfInput) (rest : c'.rest = c.rest)
    (endLine : c'.endLine = c.endLine) (size : c.rest.length ≤ bound)
    (size' : c.rest.length ≤ bound') :
    (parseFrom bound c).errors = (parseFrom bound' c').errors := by
  obtain ⟨v, relabel, whole, shows_⟩ := shows_cursor c inner c'.nextId
  obtain ⟨v', relabel', whole', shows'⟩ := shows_cursor c' (rest ▸ inner) c.nextId
  rw [rest, endLine, Nat.add_comm] at shows'
  obtain ⟨_, run, -⟩ := program_of_shows whole shows_ size
    (Nat.lt_succ_of_le (Nat.le_max_left bound bound'))
  obtain ⟨_, run', -⟩ := program_of_shows whole' shows' (rest ▸ size')
    (Nat.lt_succ_of_le (Nat.le_max_right bound bound'))
  rw [run, relabel, relabel'] at run'
  have same := (Prod.mk.inj (EStateM.Result.ok.inj run').1).2
  exact (List.map_id' _).symm.trans (same.trans (List.map_id' _))

/-- Every statement and every error takes a token of its own. -/
theorem parseFrom_length_le {bound : Nat} {c : Cursor} (size : c.rest.length ≤ bound) :
    (parseFrom bound c).statements.length + (parseFrom bound c).errors.length ≤ c.rest.length := by
  induction bound generalizing c with
  | zero => exact Nat.zero_le _
  | succ bound ih =>
    by_cases empty : c.rest = []
    · rw [parseFrom_of_rest_eq_nil empty]
      exact Nat.zero_le _
    · have reads := declaration_reads size
      have some := List.length_pos_iff.mpr empty
      cases found : Parse.declaration (bound + 1) c with
      | ok s c' =>
        rw [found] at reads
        have rest := ih (Nat.le_of_lt_succ (Nat.lt_of_lt_of_le reads size))
        rw [parseFrom_of_ok empty found]
        simp only [List.length_cons] at reads ⊢
        omega
      | error e c' =>
        rw [found] at reads
        have shorter := Recovery.length_resume_le c'.rest
        let c'' := { c' with rest := Recovery.resume c'.rest }
        have fewer : c''.rest.length < c.rest.length := by
          simp only [c''] at reads ⊢
          omega
        have rest := ih (Nat.le_of_lt_succ (Nat.lt_of_lt_of_le fewer size))
        rw [parseFrom_of_error empty found]
        simp only [List.length_cons, c''] at rest fewer ⊢
        omega

/-- Statements that are built one by one, without an error. -/
inductive Buffered.Builds (fuel : Nat) : TokenBuffer → List Stmt → TokenBuffer → Prop where
  | none (b : TokenBuffer) : Builds fuel b [] b
  | more {b b₁ b₂ : TokenBuffer} {s : Stmt} {ss : List Stmt} : Buffered.isAtEnd b = .ok false b →
      Buffered.declaration fuel b = .ok s b₁ → Builds fuel b₁ ss b₂ → Builds fuel b (s :: ss) b₂

/-- Statements that are built over a cursor are built over a buffer that shows it. -/
theorem builds_of_shows {v : View} (plain : v.relabel = .refl) (whole : v.left = [])
    {limit fuel : Nat} (enough : limit < fuel) {c c' : Cursor} {ss : List Stmt}
    (builds : Cursor.Builds limit c ss c') {b : TokenBuffer} (shows_ : v.Shows c b) :
    ∃ b', Buffered.Builds fuel b ss b' ∧ v.Shows c' b' := by
  induction builds generalizing b with
  | none c => exact ⟨b, .none b, shows_⟩
  | @more n c c₁ c₂ s ss within some size ok _ ih =>
    obtain ⟨t, rest, here⟩ := List.exists_cons_of_ne_nil some
    obtain ⟨-, b₁, same, shows₁⟩ :=
      declaration_ok_of_shows whole shows_ size (Nat.lt_of_le_of_lt within enough) ok
    obtain ⟨b₂, later, shows₂⟩ := ih shows₁
    rw [plain, Stmt.relabel_refl] at same
    exact ⟨b₂, .more (Parse.isAtEnd_cons shows_ here) same later, shows₂⟩

/-- Where the first error arises, where recovery leaves off, and what is reported from there on. -/
theorem first_error_of_shows {v : View} (plain : v.relabel = .refl) (whole : v.left = [])
    {c : Cursor} {b : TokenBuffer} {bound fuel : Nat} (shows_ : v.Shows c b)
    (size : c.rest.length ≤ bound) (enough : bound < fuel) {e : ParseError} {later : List ParseError}
    (errors : (parseFrom bound c).errors = e :: later) :
    ∃ ss b₁ b₂ b₃, Buffered.Builds fuel b ss b₁ ∧
      Buffered.declaration fuel b₁ = .error (.error e) b₂ ∧
      Buffered.synchronize fuel b₂ = .ok () b₃ ∧
      ∃ c₃ bound₃, v.Shows c₃ b₃ ∧ c₃.rest.length ≤ bound₃ ∧ later = (parseFrom bound₃ c₃).errors := by
  obtain ⟨ss, c₁, c₂, n, builds, within, some, size₁, failed, rfl⟩ :=
    first_error size (Nat.le_refl bound) errors
  obtain ⟨b₁, built, shows₁⟩ := builds_of_shows plain whole enough builds shows_
  obtain ⟨fewer, b₂, b₃, same, -, recovered, shows₃⟩ := declaration_error_of_shows whole shows₁ some
    size₁ (Nat.lt_of_le_of_lt within enough) failed
  rw [plain] at same
  exact ⟨ss, b₁, b₂, b₃, built, same, recovered, _, n, shows₃, by simp only; omega, rfl⟩

/-- A token list is read up to its first end of input. -/
theorem Cursor.ofTokens_append {ts more : List Token} {e : Token}
    (inner : ∀ t ∈ ts, t.kind ≠ .endOfInput) (isEnd : e.kind = .endOfInput) (nextId : ExprId) :
    Cursor.ofTokens (ts ++ e :: more) nextId = ⟨ts, e.line, nextId⟩ := by
  have front : (ts ++ e :: more).takeWhile (·.kind ≠ .endOfInput) = ts := by
    rw [List.takeWhile_append_of_pos fun t mem => decide_eq_true (inner t mem),
      List.takeWhile_cons_of_neg (by simpa using isEnd), List.append_nil]
  have first : (ts ++ e :: more).find? (·.kind = .endOfInput) = some e := by
    rw [List.find?_append, List.find?_eq_none.mpr fun t mem => by simpa using inner t mem,
      List.find?_cons_of_pos (by simpa using isEnd)]
    rfl
  rw [Cursor.ofTokens, front, first]
  rfl

/-- Where the buffer goes on like the cursor, it has an end of input behind the cursor's tokens. -/
theorem View.Shows.exists_end {v : View} {c : Cursor} {b : TokenBuffer} (shows_ : v.Shows c b)
    (whole : v.left = []) :
    ∃ e more, v.right = e :: more ∧ e.kind = .endOfInput ∧ e.line = v.line c.endLine := by
  have meets := shows_.meets
  cases right : v.right with
  | nil => simp [Meets, whole, right] at meets
  | cons e more =>
    simp only [Meets, whole, right] at meets
    rw [← shows_.endLine] at meets
    exact ⟨e, more, rfl, meets⟩

section Tokens
variable {tokens : List Token} {nextId fuel : Nat}
  (enough : (tokens.takeWhile (·.kind ≠ .endOfInput)).length < fuel)
include enough

theorem program_ofTokens :
    ∃ b, Buffered.program fuel (TokenBuffer.ofTokens tokens nextId) =
        .ok ((parseTokens tokens nextId).statements, (parseTokens tokens nextId).errors) b ∧
      b.current = (tokens.takeWhile (·.kind ≠ .endOfInput)).length ∧
      b.nextId = (parseTokens tokens nextId).nextId := by
  obtain ⟨v, plain, whole, total, shows_⟩ :=
    shows_plain tokens (.ofTokens tokens nextId) rfl (Nat.zero_le _)
  obtain ⟨b, run, ended⟩ := program_of_shows whole shows_ (Nat.le_refl _) enough
  rw [plain, Stmt.relabelEach_refl] at run
  have ids : b.nextId = _ := ended.ids
  have shift : v.shift = 0 := by
    have same := congrFun (congrArg Relabel.id plain) 0
    exact (Nat.zero_add _).symm.trans same
  refine ⟨b, run.trans ?_, ended.total.trans total, ?_⟩
  · rw [show List.map (ParseError.relabel .refl) _ = _ from List.map_id' _]
    rfl
  · rw [ids, shift]
    rfl

theorem soleExpression_ofTokens :
    match parseExpression tokens nextId with
    | .ok e => ∃ b, Buffered.soleExpression fuel (TokenBuffer.ofTokens tokens nextId) = .ok e b
    | .error e =>
      ∃ b, Buffered.soleExpression fuel (TokenBuffer.ofTokens tokens nextId) = .error (.error e) b := by
  obtain ⟨v, plain, whole, total, shows_⟩ :=
    shows_plain tokens (.ofTokens tokens nextId) rfl (Nat.zero_le _)
  have tracks := Parse.tracks_soleExpression (v := v) enough (Cursor.ofTokens tokens nextId)
    (Nat.le_refl _)
  have within (c : Cursor) : v.left.length ≤ c.rest.length := by
    rw [whole]
    exact Nat.zero_le _
  unfold parseExpression
  dsimp only
  change Parse.Keeps _ _ _ _ _ (Parse.soleExpression
    (Cursor.ofTokens tokens nextId).rest.length (Cursor.ofTokens tokens nextId)) at tracks
  cases found : Parse.soleExpression (Cursor.ofTokens tokens nextId).rest.length
      (Cursor.ofTokens tokens nextId) with
  | ok e c =>
    rw [found] at tracks
    obtain ⟨b, run, -⟩ := tracks.2 _ shows_ (within c)
    rw [plain, Expr.relabel_refl] at run
    exact ⟨b, run⟩
  | error e c =>
    rw [found] at tracks
    obtain ⟨b, run, -⟩ := tracks.2 _ shows_ (within c)
    rw [plain] at run
    exact ⟨b, run⟩

/-- A round moves on from wherever it begins in front of the end of input. -/
theorem round_moves {b : TokenBuffer} (same : b.tokens = (TokenBuffer.ofTokens tokens nextId).tokens)
    (inside : b.current < (tokens.takeWhile (·.kind ≠ .endOfInput)).length) :
    ∃ r b', Buffered.round fuel b = .ok r b' ∧
      b'.tokens = (TokenBuffer.ofTokens tokens nextId).tokens ∧ b.current < b'.current ∧
      b'.current ≤ (tokens.takeWhile (·.kind ≠ .endOfInput)).length := by
  obtain ⟨v, -, whole, total, shows_⟩ := shows_plain tokens b same (Nat.le_of_lt inside)
  have total' : v.total = (tokens.takeWhile (·.kind ≠ .endOfInput)).length := total
  obtain ⟨c, shows_⟩ : ∃ c, v.Shows c b := ⟨_, shows_⟩
  have here := shows_.total
  have tokens' := shows_.tokens
  have some : c.rest ≠ [] := by
    rw [← List.length_pos_iff]
    omega
  have size : c.rest.length ≤ (tokens.takeWhile (·.kind ≠ .endOfInput)).length := by omega
  -- the new index and the old one count the same tokens from the end
  cases found : Parse.declaration (tokens.takeWhile (·.kind ≠ .endOfInput)).length c with
  | ok s c' =>
    obtain ⟨fewer, b', run, shows'⟩ := declaration_ok_of_shows whole shows_ size enough found
    have there := shows'.total
    refine ⟨.ok (s.relabel v.relabel), b', by simp only [Buffered.round, run], ?_, ?_, ?_⟩
    · rw [shows'.tokens, ← tokens', same]
    · omega
    · omega
  | error e c' =>
    obtain ⟨fewer, b₁, b₂, run, -, recovered, shows'⟩ :=
      declaration_error_of_shows whole shows_ some size enough found
    have there := shows'.total
    dsimp only at there
    refine ⟨.error (e.relabel v.relabel), b₂, by simp only [Buffered.round, run, recovered], ?_, ?_, ?_⟩
    · rw [shows'.tokens, ← tokens', same]
    · omega
    · omega

/-- The errors after the first are those of the tokens that recovery leaves. -/
theorem later_errors_ofTokens {e : ParseError} {later : List ParseError}
    (errors : (parseTokens tokens nextId).errors = e :: later) :
    ∃ ss b₁ b₂ b₃, Buffered.Builds fuel (TokenBuffer.ofTokens tokens nextId) ss b₁ ∧
      Buffered.declaration fuel b₁ = .error (.error e) b₂ ∧
      Buffered.synchronize fuel b₂ = .ok () b₃ ∧
      ∀ nextId', later = (parseTokens (b₃.tokens.drop b₃.current) nextId').errors := by
  obtain ⟨v, plain, whole, total, shows_⟩ :=
    shows_plain tokens (.ofTokens tokens nextId) rfl (Nat.zero_le _)
  obtain ⟨ss, b₁, b₂, b₃, builds, failed, recovered, c₃, bound₃, shows₃, size₃, rfl⟩ :=
    first_error_of_shows plain whole shows_ (Nat.le_refl _) enough errors
  refine ⟨ss, b₁, b₂, b₃, builds, failed, recovered, fun nextId' => ?_⟩
  obtain ⟨ts, split, inner, left⟩ := shows₃.split
  rw [whole, List.append_nil] at split
  obtain ⟨e, more, right, isEnd, onLine⟩ := shows₃.exists_end whole
  have rest : b₃.tokens.drop b₃.current = c₃.rest ++ e :: more := by
    rw [left, plain, right, split]
    exact congrArg (· ++ _) (List.map_id' ts)
  have line : e.line = c₃.endLine := onLine.trans (congrFun (congrArg Relabel.line plain) _)
  rw [rest, parseTokens, Cursor.ofTokens_append (split ▸ inner) isEnd]
  exact parseFrom_errors_eq (split ▸ inner) rfl line size₃ (Nat.le_refl _)

end Tokens

/-- Parsing ends without an index out of the buffer's bounds, whatever tokens there are and whatever
fuel is left over: over the buffer, a program and a sole expression come out as over the cursor.
Each round of a program's loop moves the index on from wherever it stands before the first end of
input, so there are no more statements and errors than tokens. The errors after the first are those
of the tokens that recovery leaves, read as a program of their own. -/
theorem parsing_ends_in_bounds (tokens : List Token) (nextId extra : Nat) :
    let size := (tokens.takeWhile (·.kind ≠ .endOfInput)).length
    let fuel := size + 1 + extra
    let start := TokenBuffer.ofTokens tokens nextId
    let parsed := parseTokens tokens nextId
    (∃ b, Buffered.program fuel start = .ok (parsed.statements, parsed.errors) b ∧
      b.current = size ∧ b.nextId = parsed.nextId) ∧
    (match parseExpression tokens nextId with
      | .ok e => ∃ b, Buffered.soleExpression fuel start = .ok e b
      | .error e => ∃ b, Buffered.soleExpression fuel start = .error (.error e) b) ∧
    (∀ b : TokenBuffer, b.tokens = start.tokens → b.current < size →
      ∃ r b', Buffered.round fuel b = .ok r b' ∧ b'.tokens = start.tokens ∧
        b.current < b'.current ∧ b'.current ≤ size) ∧
    parsed.statements.length + parsed.errors.length ≤ size ∧
    ∀ e later, parsed.errors = e :: later →
      ∃ ss b₁ b₂ b₃, Buffered.Builds fuel start ss b₁ ∧
        Buffered.declaration fuel b₁ = .error (.error e) b₂ ∧
        Buffered.synchronize fuel b₂ = .ok () b₃ ∧
        ∀ nextId', later = (parseTokens (b₃.tokens.drop b₃.current) nextId').errors := by
  intro size fuel start parsed
  have enough : size < fuel := Nat.lt_of_lt_of_le (Nat.lt_succ_self size) (Nat.le_add_right _ _)
  refine ⟨program_ofTokens enough, soleExpression_ofTokens enough, ?_, ?_, ?_⟩
  · exact fun b same inside => round_moves enough same inside
  · exact parseFrom_length_le (Nat.le_refl _)
  · exact fun e later errors => later_errors_ofTokens enough errors

end ScopeScript
