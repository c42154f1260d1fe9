import Mathlib.Data.List.TakeWhile
import ScopeScript.Proofs.Parse.Places
import ScopeScript.Proofs.Parse.Track

/-! The loop of a program over a buffer. A round ends behind a declaration or where recovery leaves
off, and both over the buffer and over the cursor it ends further on than it began. -/
namespace ScopeScript

namespace Parse
variable {v : View} {c : Cursor} {b : TokenBuffer}

theorem advance_nil (shows_ : v.Shows c b) (empty : c.rest = []) (read : 0 < b.current) :
    ∃ t, Buffered.advance b = .ok t b := by
  obtain ⟨e, found, -, -⟩ := shows_.peek_nil empty
  obtain ⟨index, here⟩ : ∃ index, b.current = index + 1 := ⟨b.current - 1, by omega⟩
  have inside : index < b.tokens.length := by
    unfold Buffered.peek at found
    split at found
    · next some =>
      have := List.getElem?_eq_some_iff.mp some
      have := this.1
      omega
    · cases found
  refine ⟨b.tokens[index], ?_⟩
  rw [Buffered.advance, Buffered.bind_ok (isAtEnd_nil shows_ empty), if_pos rfl]
  simp only [Buffered.previous, here, List.getElem?_eq_getElem inside]

/-- From behind a token that has been dropped, recovery goes on as far as the cursor resumes. -/
theorem skip_of_shows (whole : v.left = []) {rest : List Token} {t : Token} {fuel : Nat}
    (shows_ : v.Shows { c with rest } b) (before : Buffered.previous b = .ok (t.relabel v.relabel) b)
    (enough : rest.length < fuel) :
    ∃ b', Buffered.skip fuel b = .ok () b' ∧
      v.Shows { c with rest := Recovery.resume (t :: rest) } b' := by
  induction rest generalizing t b fuel with
  | nil =>
    obtain ⟨fuel, rfl⟩ : ∃ m, fuel = m + 1 := ⟨fuel - 1, by simp at enough; omega⟩
    refine ⟨b, ?_, ?_⟩
    · rw [Buffered.skip, Buffered.bind_ok (isAtEnd_nil shows_ rfl), if_pos rfl]
      rfl
    · have done : Recovery.resume [t] = [] := by
        rw [Recovery.resume]
        split <;> rfl
      rwa [done]
  | cons u rest ih =>
    obtain ⟨fuel, rfl⟩ : ∃ m, fuel = m + 1 := ⟨fuel - 1, by simp at enough; omega⟩
    rw [Buffered.skip, Buffered.bind_ok (isAtEnd_cons shows_ rfl), if_neg (by decide),
      Buffered.bind_ok before, Token.relabel_kind]
    by_cases semicolon : t.kind = .symbol .semicolon
    · rw [if_pos semicolon]
      refine ⟨b, rfl, ?_⟩
      rwa [Recovery.resume, if_pos (by simp [semicolon])]
    · rw [if_neg semicolon, Buffered.bind_ok (shows_.peek_cons rfl).1, Token.relabel_kind]
      by_cases starts : Recovery.startsStatement u.kind = true
      · rw [if_pos starts]
        refine ⟨b, rfl, ?_⟩
        rwa [Recovery.resume, if_pos (by simp [starts])]
      · rw [if_neg starts, Buffered.bind_ok (advance_of_shows shows_ rfl)]
        rw [Recovery.resume, if_neg (by simp [semicolon, starts])]
        have next := shows_.step rfl (by rw [whole]; exact Nat.zero_le _)
        rw [List.length_cons] at enough
        exact ih next (previous_of_shows shows_ rfl) (by omega)

/-- Recovery over the buffer leaves off where the cursor resumes. At the end of the input it only
looks back, so a token must have been read. -/
theorem synchronize_of_shows (whole : v.left = []) {fuel : Nat} (shows_ : v.Shows c b)
    (read : c.rest = [] → 0 < b.current) (enough : c.rest.length < fuel) :
    ∃ b', Buffered.synchronize fuel b = .ok () b' ∧
      v.Shows { c with rest := Recovery.resume c.rest } b' := by
  cases here : c.rest with
  | nil =>
    obtain ⟨t, stays⟩ := advance_nil shows_ here (read here)
    obtain ⟨fuel, rfl⟩ : ∃ m, fuel = m + 1 := ⟨fuel - 1, by omega⟩
    refine ⟨b, ?_, ?_⟩
    · rw [Buffered.synchronize, Buffered.bind_ok stays, Buffered.skip,
        Buffered.bind_ok (isAtEnd_nil shows_ here), if_pos rfl]
      rfl
    · rw [Recovery.resume, ← here]
      exact shows_
  | cons t rest =>
    rw [Buffered.synchronize, Buffered.bind_ok (advance_of_shows shows_ here)]
    have next := shows_.step here (by rw [whole]; exact Nat.zero_le _)
    refine skip_of_shows whole next (previous_of_shows shows_ here) ?_
    rw [here, List.length_cons] at enough
    omega

end Parse

theorem Recovery.length_resume_le (ts : List Token) : (resume ts).length ≤ ts.length - 1 := by
  cases ts with
  | nil => exact Nat.le_refl 0
  | cons t rest => exact (resume_suffix t rest).length_le

section Rounds
variable {v : View} {c c' : Cursor} {b : TokenBuffer} {n bound fuel : Nat}

/-- A round that builds a statement. -/
theorem declaration_ok_of_shows (whole : v.left = []) (shows_ : v.Shows c b)
    (size : c.rest.length ≤ n) (enough : n < fuel) {s : Stmt}
    (ok : Parse.declaration n c = .ok s c') :
    c'.rest.length < c.rest.length ∧
      ∃ b', Buffered.declaration fuel b = .ok (s.relabel v.relabel) b' ∧ v.Shows c' b' := by
  have tracks := (Parse.tracks_statement_declaration (v := v) enough).2 c size
  rw [ok] at tracks
  exact ⟨tracks.1, tracks.2 b shows_ (by rw [whole]; exact Nat.zero_le _)⟩

/-- A round that reports an error and recovers. -/
theorem declaration_error_of_shows (whole : v.left = []) (shows_ : v.Shows c b) (more : c.rest ≠ [])
    (size : c.rest.length ≤ n) (enough : n < fuel) {e : ParseError}
    (failed : Parse.declaration n c = .error e c') :
    (Recovery.resume c'.rest).length < c.rest.length ∧
      ∃ b₁ b₂, Buffered.declaration fuel b = .error (.error (e.relabel v.relabel)) b₁ ∧
        v.Shows c' b₁ ∧ Buffered.synchronize fuel b₁ = .ok () b₂ ∧
        v.Shows { c' with rest := Recovery.resume c'.rest } b₂ := by
  have tracks := (Parse.tracks_statement_declaration (v := v) enough).2 c size
  rw [failed] at tracks
  obtain ⟨fewer, same⟩ := tracks
  obtain ⟨b₁, found, shows₁⟩ := same b shows_ (by rw [whole]; exact Nat.zero_le _)
  have some := List.length_pos_iff.mpr more
  have shorter := Recovery.length_resume_le c'.rest
  -- an error at the end of the input comes after at least one token
  have read : c'.rest = [] → 0 < b₁.current := by
    intro empty
    have total := shows_.total
    have total₁ := shows₁.total
    rw [empty, List.length_nil] at total₁
    omega
  obtain ⟨b₂, recovered, shows₂⟩ := Parse.synchronize_of_shows whole shows₁ read
    (by omega : c'.rest.length < fuel)
  exact ⟨by omega, b₁, b₂, found, shows₁, recovered, shows₂⟩

theorem program_nil (shows_ : v.Shows c b) (empty : c.rest = []) (fuel : Nat) :
    Buffered.program (fuel + 1) b = .ok ([], []) b := by
  rw [Buffered.program, Buffered.bind_ok (Parse.isAtEnd_nil shows_ empty), if_pos rfl]
  rfl

theorem parseFrom_of_error {e : ParseError} (more : c.rest ≠ [])
    (failed : Parse.declaration (bound + 1) c = .error e c') :
    parseFrom (bound + 1) c =
      let later := parseFrom bound { c' with rest := Recovery.resume c'.rest }
      { later with errors := e :: later.errors } := by
  obtain ⟨t, rest, here⟩ := List.exists_cons_of_ne_nil more
  simp only [parseFrom, here, failed]

/-- Statements that are built one by one, without an error. -/
inductive Cursor.Builds (limit : Nat) : Cursor → List Stmt → Cursor → Prop where
  | none (c : Cursor) : Builds limit c [] c
  | more {n : Nat} {c c₁ c₂ : Cursor} {s : Stmt} {ss : List Stmt} : n ≤ limit → c.rest ≠ [] →
      c.rest.length ≤ n → Parse.declaration n c = .ok s c₁ → Builds limit c₁ ss c₂ →
      Builds limit c (s :: ss) c₂

theorem declaration_reads {n : Nat} {c : Cursor} (size : c.rest.length ≤ n) :
    match Parse.declaration n c with
    | .ok _ c' => c'.rest.length < c.rest.length
    | .error _ c' => c'.rest.length ≤ c.rest.length := by
  let v : View := ⟨[], 0, 0, fun line => line, 0, [], []⟩
  have tracks := (Parse.tracks_statement_declaration (v := v) (Nat.lt_succ_self n)).2 c size
  split
  · next found =>
    rw [found] at tracks
    exact tracks.1
  · next found =>
    rw [found] at tracks
    exact tracks.1

/-- Where the first error arises, and what is reported from there on. -/
theorem first_error {limit : Nat} (size : c.rest.length ≤ bound) (within : bound ≤ limit)
    {e : ParseError} {later : List ParseError} (errors : (parseFrom bound c).errors = e :: later) :
    ∃ ss c₁ c₂ n, Cursor.Builds limit c ss c₁ ∧ n + 1 ≤ limit ∧ c₁.rest ≠ [] ∧
      c₁.rest.length ≤ n + 1 ∧ Parse.declaration (n + 1) c₁ = .error e c₂ ∧
      later = (parseFrom n { c₂ with rest := Recovery.resume c₂.rest }).errors := by
  induction bound generalizing c with
  | zero => cases errors
  | succ bound ih =>
    by_cases empty : c.rest = []
    · rw [parseFrom_of_rest_eq_nil empty] at errors
      cases errors
    · have reads := declaration_reads size
      cases found : Parse.declaration (bound + 1) c with
      | ok s c' =>
        rw [found] at reads
        rw [parseFrom_of_ok empty found] at errors
        obtain ⟨ss, c₁, c₂, n, builds, rest⟩ :=
          ih (Nat.le_of_lt_succ (Nat.lt_of_lt_of_le reads size)) (Nat.le_of_succ_le within) errors
        exact ⟨s :: ss, c₁, c₂, n, .more within empty size found builds, rest⟩
      | error e' c' =>
        rw [parseFrom_of_error empty found] at errors
        obtain ⟨rfl, rfl⟩ := List.cons.inj errors
        exact ⟨[], c, c', bound, .none c, within, empty, size, found, rfl⟩

/-- The statements and errors of a program are the same over a buffer. -/
theorem program_of_shows (whole : v.left = []) (shows_ : v.Shows c b)
    (size : c.rest.length ≤ bound) (enough : bound < fuel) :
    ∃ b', Buffered.program fuel b =
        .ok (Stmt.relabelEach v.relabel (parseFrom bound c).statements,
          (parseFrom bound c).errors.map (ParseError.relabel v.relabel)) b' ∧
      v.Shows ⟨[], v.endLine, (parseFrom bound c).nextId⟩ b' := by
  induction bound generalizing c b fuel with
  | zero =>
    obtain ⟨fuel, rfl⟩ : ∃ m, fuel = m + 1 := ⟨fuel - 1, by omega⟩
    have empty : c.rest = [] := List.eq_nil_of_length_eq_zero (Nat.le_zero.mp size)
    refine ⟨b, program_nil shows_ empty fuel, ?_⟩
    rw [parseFrom_of_rest_eq_nil empty, ← shows_.endLine, ← empty]
    exact shows_
  | succ bound ih =>
    obtain ⟨fuel, rfl⟩ : ∃ m, fuel = m + 1 := ⟨fuel - 1, by omega⟩
    by_cases empty : c.rest = []
    · rw [parseFrom_of_rest_eq_nil empty]
      refine ⟨b, program_nil shows_ empty fuel, ?_⟩
      rw [← shows_.endLine, ← empty]
      exact shows_
    · obtain ⟨t, rest, here⟩ := List.exists_cons_of_ne_nil empty
      rw [Buffered.program, Buffered.bind_ok (Parse.isAtEnd_cons shows_ here), if_neg (by decide)]
      cases found : Parse.declaration (bound + 1) c with
      | ok s c' =>
        obtain ⟨fewer, b₁, same, shows₁⟩ := declaration_ok_of_shows whole shows_ size enough found
        obtain ⟨b', rest, shows'⟩ := ih shows₁ (by omega) (by omega : bound < fuel)
        have round : Buffered.round (fuel + 1) b = .ok (.ok (s.relabel v.relabel)) b₁ := by
          simp only [Buffered.round, same]
        rw [parseFrom_of_ok empty found]
        refine ⟨b', ?_, shows'⟩
        rw [Buffered.bind_ok round]
        exact Buffered.bind_ok rest
      | error e c' =>
        obtain ⟨fewer, b₁, b₂, same, -, recovered, shows₂⟩ :=
          declaration_error_of_shows whole shows_ empty size enough found
        obtain ⟨b', rest, shows'⟩ := ih shows₂ (by simp only; omega) (by omega : bound < fuel)
        have round : Buffered.round (fuel + 1) b = .ok (.error (e.relabel v.relabel)) b₂ := by
          simp only [Buffered.round, same, recovered]
        rw [parseFrom_of_error empty found]
        refine ⟨b', ?_, shows'⟩
        rw [Buffered.bind_ok round]
        exact Buffered.bind_ok rest

end Rounds

/-! Whole token lists. -/

/-- Numbers and lines of a buffer changed. -/
def TokenBuffer.relabel (r : Relabel) (b : TokenBuffer) : TokenBuffer :=
  ⟨b.tokens.map (Token.relabel r), b.current, r.id b.nextId⟩

theorem takeWhile_append_find? {tokens : List Token} {e : Token}
    (found : tokens.find? (·.kind = .endOfInput) = some e) :
    e.kind = .endOfInput ∧
      ∃ more, tokens = tokens.takeWhile (·.kind ≠ .endOfInput) ++ e :: more := by
  induction tokens with
  | nil => cases found
  | cons t rest ih =>
    by_cases isEnd : t.kind = .endOfInput
    · rw [List.find?_cons_of_pos (by simpa using isEnd)] at found
      cases found
      refine ⟨isEnd, rest, ?_⟩
      rw [List.takeWhile_cons_of_neg (by simpa using isEnd)]
      rfl
    · rw [List.find?_cons_of_neg (by simpa using isEnd)] at found
      obtain ⟨isEnd', more, split⟩ := ih found
      refine ⟨isEnd', more, ?_⟩
      rw [List.takeWhile_cons_of_pos (by simpa using isEnd), List.cons_append, ← split]

/-- The buffer of a token list holds what the cursor reads, and an end of input behind it. -/
theorem TokenBuffer.ofTokens_split (tokens : List Token) (nextId : ExprId) :
    ∃ e more, (ofTokens tokens nextId).tokens = (Cursor.ofTokens tokens nextId).rest ++ e :: more ∧
      e.kind = .endOfInput ∧ e.line = (Cursor.ofTokens tokens nextId).endLine := by
  unfold ofTokens Cursor.ofTokens
  dsimp only
  cases found : tokens.find? (·.kind = .endOfInput) with
  | some e =>
    obtain ⟨isEnd, more, split⟩ := takeWhile_append_find? found
    split
    · exact ⟨e, more, split, isEnd, rfl⟩
    · generalize [(⟨⟨"", _⟩, .endOfInput⟩ : Token)] = added
      refine ⟨e, more ++ added, ?_, isEnd, rfl⟩
      rw [← List.cons_append, ← List.append_assoc, ← split]
  | none =>
    have inner : ∀ t ∈ tokens, decide (t.kind ≠ .endOfInput) = true := by
      intro t mem
      simpa using List.find?_eq_none.mp found t mem
    have notLast : ¬ tokens.getLast?.any (·.kind = .endOfInput) = true := by
      cases isLast : tokens.getLast? with
      | none => nofun
      | some t => simpa using inner t (List.mem_of_getLast? isLast)
    rw [if_neg notLast, List.takeWhile_eq_self_iff.mpr inner]
    exact ⟨_, [], rfl, rfl, rfl⟩

/-- A buffer of a token list shows what a cursor reads from the same place on, also with other lines
and numbers. -/
theorem shows_ofTokens (tokens : List Token) (nextId shift : ExprId) (line : Nat → Nat) {i : Nat}
    (inside : i ≤ (Cursor.ofTokens tokens nextId).rest.length) :
    ∃ v : View, v.relabel = ⟨(· + shift), line⟩ ∧ v.left = [] ∧
      v.total = (Cursor.ofTokens tokens nextId).rest.length ∧
      v.Shows { Cursor.ofTokens tokens nextId with
          rest := (Cursor.ofTokens tokens nextId).rest.drop i }
        { (TokenBuffer.ofTokens tokens nextId).relabel ⟨(· + shift), line⟩ with current := i } := by
  obtain ⟨e, more, split, isEnd, onLine⟩ := TokenBuffer.ofTokens_split tokens nextId
  let r : Relabel := ⟨(· + shift), line⟩
  refine ⟨⟨(TokenBuffer.ofTokens tokens nextId).tokens.map (Token.relabel r),
    (Cursor.ofTokens tokens nextId).rest.length, shift, line, (Cursor.ofTokens tokens nextId).endLine,
    [], (e :: more).map (Token.relabel r)⟩, rfl, rfl, rfl, ?_⟩
  refine ⟨⟨isEnd, congrArg line onLine⟩, rfl, ?_, rfl, rfl, ?_⟩
  · rw [List.length_drop]
    exact Nat.add_sub_cancel' inside
  refine ⟨(Cursor.ofTokens tokens nextId).rest.drop i, (List.append_nil _).symm, ?_, ?_⟩
  · intro t mem
    simpa using List.mem_takeWhile_imp (List.mem_of_mem_drop mem)
  · change (List.map _ _).drop i = _
    rw [split, List.map_append, List.drop_append_of_le_length (by rwa [List.length_map]),
      List.map_drop]
    rfl

end ScopeScript
