import ScopeScript.Proofs.Parse.Buffer
import ScopeScript.Proofs.Parse.Carry
import ScopeScript.Proofs.Scope.Relabel

/-! A parse over a buffer keeps step with one over a cursor. The buffer may hold other lines, number
its nodes from another number on, and go on with other tokens from some point: as long as the parse
has not read past that point both do the same, errors included, since neither looks further ahead
than one token. -/
namespace ScopeScript

def ParseError.relabel (r : Relabel) (e : ParseError) : ParseError :=
  { e with place := e.place.relabel r }

theorem Token.place_relabel {r : Relabel} {t : Token} (inner : t.kind ≠ .endOfInput) :
    (t.relabel r).place = (Place.ofLexeme t.toLexeme).relabel r := if_neg inner

/-- How a buffer shows a cursor's input. From the tokens `left` on, the buffer has `right`; the
first token of both is the same, or both are at their end. -/
structure View where
  tokens : List Token
  total : Nat
  shift : Nat
  line : Nat → Nat
  endLine : Nat
  left : List Token
  right : List Token

namespace View

def relabel (v : View) : Relabel := ⟨(· + v.shift), v.line⟩

/-- The next token is the same on both sides. -/
def Meets (v : View) : Prop :=
  match v.left, v.right with
  | [], e :: _ => e.kind = .endOfInput ∧ e.line = v.line v.endLine
  | t :: _, u :: _ => t.kind ≠ .endOfInput ∧ u = t.relabel v.relabel
  | _, [] => False

/-- The buffer stands where the cursor does. -/
structure Shows (v : View) (c : Cursor) (b : TokenBuffer) : Prop where
  meets : v.Meets
  tokens : b.tokens = v.tokens
  total : b.current + c.rest.length = v.total
  ids : b.nextId = c.nextId + v.shift
  endLine : c.endLine = v.endLine
  split : ∃ ts, c.rest = ts ++ v.left ∧ (∀ t ∈ ts, t.kind ≠ .endOfInput) ∧
    b.tokens.drop b.current = ts.map (Token.relabel v.relabel) ++ v.right

namespace Shows
variable {v : View} {c : Cursor} {b : TokenBuffer}

/-- At the end of the cursor's input, the buffer has an end of input. -/
theorem peek_nil (shows_ : v.Shows c b) (empty : c.rest = []) :
    ∃ e, Buffered.peek b = .ok e b ∧ e.kind = .endOfInput ∧ e.place = c.place.relabel v.relabel := by
  obtain ⟨ts, split, -, buffer⟩ := shows_.split
  obtain ⟨rfl, none⟩ := List.append_eq_nil_iff.mp (split.symm.trans empty)
  have meets := shows_.meets
  cases rest : v.right with
  | nil => simp [Meets, none, rest] at meets
  | cons e more =>
    simp only [Meets, none, rest] at meets
    have here : b.tokens[b.current]? = some e := by
      rw [← List.head?_drop, buffer, rest]
      rfl
    refine ⟨e, by simp only [Buffered.peek, here], meets.1, ?_⟩
    rw [Token.place, if_pos meets.1, meets.2, Cursor.place, empty, shows_.endLine]
    rfl

/-- Otherwise it has the same token. -/
theorem peek_cons (shows_ : v.Shows c b) {t : Token} {rest : List Token} (here : c.rest = t :: rest) :
    Buffered.peek b = .ok (t.relabel v.relabel) b ∧ t.kind ≠ .endOfInput := by
  obtain ⟨ts, split, inner, buffer⟩ := shows_.split
  have found : b.tokens[b.current]? = some (t.relabel v.relabel) ∧ t.kind ≠ .endOfInput := by
    rw [← List.head?_drop, buffer]
    rw [here] at split
    cases ts with
    | cons u us =>
      obtain rfl : t = u := List.head_eq_of_cons_eq split
      exact ⟨rfl, inner t List.mem_cons_self⟩
    | nil =>
      have meets := shows_.meets
      simp only [Meets, show v.left = t :: rest from split.symm] at meets
      cases more : v.right with
      | nil => simp [more] at meets
      | cons u us =>
        simp only [more] at meets
        exact ⟨congrArg some meets.2, meets.1⟩
  exact ⟨by simp only [Buffered.peek, found.1], found.2⟩

/-- One token further. -/
theorem step (shows_ : v.Shows c b) {t : Token} {rest : List Token} (here : c.rest = t :: rest)
    (within : v.left.length ≤ rest.length) :
    v.Shows { c with rest := rest } { b with current := b.current + 1 } := by
  obtain ⟨ts, split, inner, buffer⟩ := shows_.split
  refine ⟨shows_.meets, shows_.tokens, ?_, shows_.ids, shows_.endLine, ?_⟩
  · have total := shows_.total
    rw [here, List.length_cons] at total
    simp only
    omega
  · rw [here] at split
    cases ts with
    | nil =>
      have longer := congrArg List.length split
      simp only [List.length_cons, List.nil_append] at longer
      omega
    | cons u us =>
      obtain ⟨rfl, tail⟩ := List.cons.inj split
      refine ⟨us, tail, fun t mem => inner t (List.mem_cons_of_mem _ mem), ?_⟩
      rw [← List.tail_drop, buffer]
      rfl

end Shows
end View

namespace Parse
variable {α β γ δ : Type} {v : View} {n k k' : Nat}

/-- What `q` does to a buffer that shows the cursor, given what has been done to the cursor: the
same, unless tokens past the common part were read. A success has read at least `k` tokens. -/
def Keeps (v : View) (k : Nat) (f : α → β) (c : Cursor) (q : Buffered β) :
    EStateM.Result ParseError Cursor α → Prop
  | .ok a c' => c'.rest.length + k ≤ c.rest.length ∧
      ∀ b, v.Shows c b → v.left.length ≤ c'.rest.length → ∃ b', q b = .ok (f a) b' ∧ v.Shows c' b'
  | .error e c' => c'.rest.length ≤ c.rest.length ∧
      ∀ b, v.Shows c b → v.left.length ≤ c'.rest.length →
        ∃ b', q b = .error (.error (e.relabel v.relabel)) b' ∧ v.Shows c' b'

/-- On inputs of at most `n` tokens, `q` does to the buffer what `p` does to the cursor. -/
def Tracks (v : View) (n k : Nat) (f : α → β) (p : Parse α) (q : Buffered β) : Prop :=
  ∀ c, c.rest.length ≤ n → Keeps v k f c q (p c)

variable {f : α → β} {g : γ → δ} {p : Parse α} {q q' : Buffered β} {c : Cursor}
  {r : EStateM.Result ParseError Cursor α}

theorem Keeps.weaken (keeps : Keeps v k f c q r) (fewer : k' ≤ k) : Keeps v k' f c q r := by
  cases r with
  | ok a c' => exact ⟨Nat.le_trans (Nat.add_le_add_left fewer _) keeps.1, keeps.2⟩
  | error e c' => exact keeps

/-- The same done in another way. -/
theorem Keeps.of_eq (keeps : Keeps v k f c q r) (same : ∀ b, v.Shows c b → q' b = q b) :
    Keeps v k f c q' r := by
  cases r with
  | ok a c' => exact ⟨keeps.1, fun b shows_ within => same b shows_ ▸ keeps.2 b shows_ within⟩
  | error e c' => exact ⟨keeps.1, fun b shows_ within => same b shows_ ▸ keeps.2 b shows_ within⟩

/-- The same done behind the next token. -/
theorem Keeps.step {t : Token} {rest : List Token} (here : c.rest = t :: rest)
    (keeps : Keeps v (k - 1) f { c with rest := rest } q r)
    (same : ∀ b, v.Shows c b → q' b = q { b with current := b.current + 1 }) :
    Keeps v k f c q' r := by
  have length : c.rest.length = rest.length + 1 := by rw [here, List.length_cons]
  cases r with
  | ok a c' =>
    obtain ⟨read, keeps⟩ := keeps
    simp only at read
    refine ⟨by omega, fun b shows_ within => ?_⟩
    rw [same b shows_]
    exact keeps _ (shows_.step here (by omega)) within
  | error e c' =>
    obtain ⟨read, keeps⟩ := keeps
    simp only at read
    refine ⟨by omega, fun b shows_ within => ?_⟩
    rw [same b shows_]
    exact keeps _ (shows_.step here (by omega)) within

/-- One after another. -/
theorem Keeps.bind {next : α → Parse γ} {next' : β → Buffered δ} (first : Keeps v k f c q (p c))
    (second : ∀ a c', c'.rest.length + k ≤ c.rest.length →
      Keeps v (k' - k) g c' (next' (f a)) (next a c')) :
    Keeps v k' g c (q >>= next') ((p >>= next) c) := by
  cases found : p c with
  | error e c' =>
    have whole : (p >>= next) c = .error e c' := by simp only [Bind.bind, EStateM.bind, found]
    rw [found] at first
    rw [whole]
    refine ⟨first.1, fun b shows_ within => ?_⟩
    obtain ⟨b', same, shows'⟩ := first.2 b shows_ within
    exact ⟨b', Buffered.bind_error same, shows'⟩
  | ok a c' =>
    have whole : (p >>= next) c = next a c' := by simp only [Bind.bind, EStateM.bind, found]
    rw [found] at first
    obtain ⟨read, same⟩ := first
    have there := second a c' read
    rw [whole]
    cases found' : next a c' with
    | error e c'' =>
      rw [found'] at there
      obtain ⟨read', same'⟩ := there
      refine ⟨by omega, fun b shows_ within => ?_⟩
      obtain ⟨b', same, shows'⟩ := same b shows_ (by omega)
      rw [Buffered.bind_ok same]
      exact same' b' shows' within
    | ok d c'' =>
      rw [found'] at there
      obtain ⟨read', same'⟩ := there
      refine ⟨by omega, fun b shows_ within => ?_⟩
      obtain ⟨b', same, shows'⟩ := same b shows_ (by omega)
      rw [Buffered.bind_ok same]
      exact same' b' shows' within

theorem Tracks.weaken {n' : Nat} (tracks : Tracks v n k f p q) (shorter : n' ≤ n) (fewer : k' ≤ k) :
    Tracks v n' k' f p q :=
  fun c size => (tracks c (Nat.le_trans size shorter)).weaken fewer

theorem Tracks.bind {next : α → Parse γ} {next' : β → Buffered δ} (first : Tracks v n k f p q)
    (second : ∀ a, Tracks v (n - k) (k' - k) g (next a) (next' (f a))) :
    Tracks v n k' g (p >>= next) (q >>= next') :=
  fun c size => (first c size).bind fun a c' read => second a c' (by omega)

theorem tracks_pure {a : α} {b : β} (same : f a = b) : Tracks v n 0 f (pure a) (pure b) := by
  intro c _
  exact ⟨Nat.le_refl _, fun b shows_ _ => ⟨b, by rw [same]; rfl, shows_⟩⟩

/-- A complaint about the next token points at the same one. -/
theorem fail_of_shows {b : TokenBuffer} (shows_ : v.Shows c b) (cause : ParseCause) :
    (Buffered.fail cause : Buffered β) b =
      .error (.error (ParseError.relabel v.relabel ⟨cause, c.place⟩)) b := by
  cases here : c.rest with
  | nil =>
    obtain ⟨e, same, -, place⟩ := shows_.peek_nil here
    rw [Buffered.fail, Buffered.bind_ok same, place]
    rfl
  | cons t rest =>
    obtain ⟨same, inner⟩ := shows_.peek_cons here
    rw [Buffered.fail, Buffered.bind_ok same, Token.place_relabel inner, Cursor.place, here]
    rfl

theorem tracks_fail (cause : ParseCause) : Tracks v n k f (fail cause) (Buffered.fail cause) :=
  fun _ _ => ⟨Nat.le_refl _, fun b shows_ _ => ⟨b, fail_of_shows shows_ cause, shows_⟩⟩

theorem tracks_failAt (l : Lexeme) (cause : ParseCause) :
    Tracks v n k f (failAt l cause) (Buffered.failAt (l.relabel v.relabel) cause) :=
  fun _ _ => ⟨Nat.le_refl _, fun b shows_ _ => ⟨b, rfl, shows_⟩⟩

/-- The number of a node. -/
theorem tracks_freshId : Tracks v n 0 v.relabel.id freshId Buffered.freshId := by
  intro c _
  refine ⟨Nat.le_refl _, fun b shows_ _ => ⟨_, by rw [Buffered.freshId, shows_.ids]; rfl, ?_⟩⟩
  exact ⟨shows_.meets, shows_.tokens, shows_.total, Nat.add_right_comm _ _ _, shows_.endLine,
    shows_.split⟩

/-! Looking at the next token and reading it. -/

theorem isAtEnd_of_shows {b : TokenBuffer} (shows_ : v.Shows c b) :
    Buffered.isAtEnd b = .ok c.rest.isEmpty b := by
  cases here : c.rest with
  | nil =>
    obtain ⟨e, same, isEnd, -⟩ := shows_.peek_nil here
    rw [Buffered.isAtEnd, Buffered.bind_ok same, isEnd]
    rfl
  | cons t rest =>
    obtain ⟨same, inner⟩ := shows_.peek_cons here
    rw [Buffered.isAtEnd, Buffered.bind_ok same, Token.relabel_kind, decide_eq_false inner]
    rfl

theorem isAtEnd_nil {b : TokenBuffer} (shows_ : v.Shows c b) (here : c.rest = []) :
    Buffered.isAtEnd b = .ok true b := by
  rw [isAtEnd_of_shows shows_, here]
  rfl

theorem isAtEnd_cons {b : TokenBuffer} (shows_ : v.Shows c b) {t : Token} {rest : List Token}
    (here : c.rest = t :: rest) : Buffered.isAtEnd b = .ok false b := by
  rw [isAtEnd_of_shows shows_, here]
  rfl

/-- Behind the index stands the token that was at it. -/
theorem previous_of_shows {b : TokenBuffer} (shows_ : v.Shows c b) {t : Token} {rest : List Token}
    (here : c.rest = t :: rest) :
    Buffered.previous { b with current := b.current + 1 } =
      .ok (t.relabel v.relabel) { b with current := b.current + 1 } := by
  have found : b.tokens[b.current]? = some (t.relabel v.relabel) := by
    have same := (shows_.peek_cons here).1
    unfold Buffered.peek at same
    split at same
    · next found => rw [found, (EStateM.Result.ok.inj same).1]
    · cases same
  simp only [Buffered.previous, found]

theorem advance_of_shows {b : TokenBuffer} (shows_ : v.Shows c b) {t : Token} {rest : List Token}
    (here : c.rest = t :: rest) :
    Buffered.advance b = .ok (t.relabel v.relabel) { b with current := b.current + 1 } := by
  have moved : (modify fun b => { b with current := b.current + 1 } : Buffered Unit) b =
      .ok () { b with current := b.current + 1 } := rfl
  rw [Buffered.advance, Buffered.bind_ok (isAtEnd_cons shows_ here), if_neg (by decide),
    Buffered.bind_ok moved, previous_of_shows shows_ here]

theorem check_of_shows {b : TokenBuffer} (shows_ : v.Shows c b) (kind : Kind) :
    Buffered.check kind b = .ok (decide (c.rest.head?.map (·.kind) = some kind)) b := by
  cases here : c.rest with
  | nil =>
    rw [Buffered.check, Buffered.bind_ok (isAtEnd_nil shows_ here), if_pos rfl]
    rfl
  | cons t rest =>
    rw [Buffered.check, Buffered.bind_ok (isAtEnd_cons shows_ here), if_neg (by decide),
      Buffered.bind_ok (shows_.peek_cons here).1]
    refine congrArg (EStateM.Result.ok · b) (decide_eq_decide.mpr ?_)
    rw [List.head?_cons, Option.map_some, Option.some.injEq, Token.relabel_kind]

/-- What reading a token that `select` takes does to a buffer. -/
theorem takeIf_of_shows {b : TokenBuffer} (shows_ : v.Shows c b) (select : Kind → Option α) :
    Buffered.takeIf select b = match c.rest with
      | [] => .ok none b
      | t :: _ =>
        match select t.kind with
        | none => .ok none b
        | some a => .ok (some (a, t.toLexeme.relabel v.relabel))
            { b with current := b.current + 1 } := by
  cases here : c.rest with
  | nil =>
    rw [Buffered.takeIf, Buffered.bind_ok (isAtEnd_nil shows_ here), if_pos rfl]
    rfl
  | cons t rest =>
    rw [Buffered.takeIf, Buffered.bind_ok (isAtEnd_cons shows_ here), if_neg (by decide),
      Buffered.bind_ok (shows_.peek_cons here).1, Token.relabel_kind]
    dsimp only
    cases select t.kind with
    | none => rfl
    | some a =>
      dsimp only
      rw [Buffered.bind_ok (advance_of_shows shows_ here)]
      rfl

/-- Reads the next token if it is the right one. -/
theorem tracks_takeIf {select : Kind → Option α} {next : Option (α × Lexeme) → Parse γ}
    {next' : Option (α × Lexeme) → Buffered δ}
    (yes : ∀ a l, Tracks v (n - 1) (k - 1) g (next (some (a, l)))
      (next' (some (a, l.relabel v.relabel))))
    (no : Tracks v n k g (next none) (next' none)) :
    Tracks v n k g (takeIf select >>= next) (Buffered.takeIf select >>= next') := by
  intro c size
  cases here : c.rest with
  | nil =>
    have found : (takeIf select >>= next) c = next none c := by
      simp only [Bind.bind, EStateM.bind, takeIf, here]
    rw [found]
    refine (no c size).of_eq fun b shows_ => Buffered.bind_ok ?_
    rw [takeIf_of_shows shows_, here]
  | cons t rest =>
    cases picks : select t.kind with
    | none =>
      have found : (takeIf select >>= next) c = next none c := by
        simp only [Bind.bind, EStateM.bind, takeIf, here, picks]
      rw [found]
      refine (no c size).of_eq fun b shows_ => Buffered.bind_ok ?_
      simp only [takeIf_of_shows shows_, here, picks]
    | some a =>
      have found : (takeIf select >>= next) c =
          next (some (a, t.toLexeme)) { c with rest := rest } := by
        simp only [Bind.bind, EStateM.bind, takeIf, here, picks]
      rw [found]
      rw [here, List.length_cons] at size
      refine (yes a t.toLexeme { c with rest := rest } (by simp only; omega)).step here ?_
      refine fun b shows_ => Buffered.bind_ok ?_
      simp only [takeIf_of_shows shows_, here, picks]

/-- Reads the next token if it is of a kind, where the buffer does the same in its own way. -/
theorem tracks_take? {kind : Kind} {next : Option Lexeme → Parse γ} {q : Buffered δ}
    (yes' : Lexeme → Buffered δ) (no' : Buffered δ)
    (yes : ∀ l, Tracks v (n - 1) (k - 1) g (next (some l)) (yes' (l.relabel v.relabel)))
    (no : Tracks v n k g (next none) no')
    (reads : ∀ {c b t rest}, v.Shows c b → c.rest = t :: rest → t.kind = kind →
      q b = yes' (t.toLexeme.relabel v.relabel) { b with current := b.current + 1 })
    (leaves : ∀ {c b}, v.Shows c b → c.rest.head?.map (·.kind) ≠ some kind → q b = no' b) :
    Tracks v n k g (take? kind >>= next) q := by
  intro c size
  by_cases found : c.rest.head?.map (·.kind) = some kind
  · cases here : c.rest with
    | nil => simp [here] at found
    | cons t rest =>
      have isKind : t.kind = kind := by simpa [here] using found
      have taken : (take? kind >>= next) c = next (some t.toLexeme) { c with rest := rest } := by
        simp [Bind.bind, EStateM.bind, take?, takeIf, here, isKind, Pure.pure, EStateM.pure]
      rw [taken]
      rw [here, List.length_cons] at size
      refine (yes t.toLexeme { c with rest := rest } (by simp only; omega)).step here ?_
      exact fun b shows_ => reads shows_ here isKind
  · have left : (take? kind >>= next) c = next none c := by
      cases here : c.rest with
      | nil => simp [Bind.bind, EStateM.bind, take?, takeIf, here, Pure.pure, EStateM.pure]
      | cons t rest =>
        have other : t.kind ≠ kind := by simpa [here] using found
        simp [Bind.bind, EStateM.bind, take?, takeIf, here, other, Pure.pure, EStateM.pure]
    rw [left]
    exact (no c size).of_eq fun b shows_ => leaves shows_ found

theorem check_yes {b : TokenBuffer} (shows_ : v.Shows c b) {t : Token} {rest : List Token}
    (here : c.rest = t :: rest) : Buffered.check t.kind b = .ok true b := by
  rw [check_of_shows shows_, here, List.head?_cons, Option.map_some, decide_eq_true rfl]

theorem check_no {b : TokenBuffer} (shows_ : v.Shows c b) {kind : Kind}
    (other : c.rest.head?.map (·.kind) ≠ some kind) : Buffered.check kind b = .ok false b := by
  rw [check_of_shows shows_, decide_eq_false other]

theorem accept_yes {b : TokenBuffer} (shows_ : v.Shows c b) {t : Token} {rest : List Token}
    (here : c.rest = t :: rest) :
    Buffered.accept t.kind b = .ok true { b with current := b.current + 1 } := by
  rw [Buffered.accept, Buffered.bind_ok (check_yes shows_ here), if_pos rfl,
    Buffered.bind_ok (advance_of_shows shows_ here)]
  rfl

theorem accept_no {b : TokenBuffer} (shows_ : v.Shows c b) {kind : Kind}
    (other : c.rest.head?.map (·.kind) ≠ some kind) : Buffered.accept kind b = .ok false b := by
  rw [Buffered.accept, Buffered.bind_ok (check_no shows_ other), if_neg (by decide)]
  rfl

theorem tracks_accept {kind : Kind} {next : Bool → Parse γ} {next' : Bool → Buffered δ}
    (yes : Tracks v (n - 1) (k - 1) g (next true) (next' true))
    (no : Tracks v n k g (next false) (next' false)) :
    Tracks v n k g (accept kind >>= next) (Buffered.accept kind >>= next') := by
  simp only [accept, bind_assoc, pure_bind]
  refine tracks_take? (fun _ => next' true) (next' false) (fun _ => yes) no
    (fun shows_ here isKind => ?_) fun shows_ other => ?_
  · subst isKind
    exact Buffered.bind_ok (accept_yes shows_ here)
  · exact Buffered.bind_ok (accept_no shows_ other)

theorem tracks_expect {kind : Kind} {cause : ParseCause} {next : Lexeme → Parse γ}
    {next' : Lexeme → Buffered δ}
    (then_ : ∀ l, Tracks v (n - 1) (k - 1) g (next l) (next' (l.relabel v.relabel))) :
    Tracks v n k g (expect kind cause >>= next) (Buffered.expect kind cause >>= next') := by
  simp only [expect, bind_assoc]
  refine tracks_take? next' (Buffered.fail cause >>= next') (fun l => ?_) ?_
    (fun shows_ here isKind => ?_) fun shows_ other => ?_
  · rw [pure_bind]
    exact then_ l
  · exact (tracks_fail (k := 1) cause).bind then_
  · subst isKind
    refine Buffered.bind_ok ?_
    rw [Buffered.expect, Buffered.bind_ok (check_yes shows_ here), if_pos rfl,
      Buffered.bind_ok (advance_of_shows shows_ here)]
    rfl
  · have missing := fail_of_shows (β := Lexeme) shows_ cause
    rw [Buffered.bind_error missing, Buffered.bind_error]
    rw [Buffered.expect, Buffered.bind_ok (check_no shows_ other), if_neg (by decide), missing]

/-- Looks at the next token, where the buffer goes on in the same way for every kind. -/
theorem tracks_peek {next : Option Kind → Parse γ} {q : Buffered δ}
    (each : ∀ kind?, ∃ q', Tracks v n k g (next kind?) q' ∧
      ∀ {c b}, v.Shows c b → c.rest.head?.map (·.kind) = kind? → q b = q' b) :
    Tracks v n k g (peek >>= next) q := by
  intro c size
  obtain ⟨q', tracks, same⟩ := each (c.rest.head?.map (·.kind))
  exact (tracks c size).of_eq fun b shows_ => same shows_ rfl

/-- Looks whether the next token is of a kind. -/
theorem tracks_check {kind : Kind} {yes no : Parse γ} {yes' no' : Buffered δ}
    (tracksYes : Tracks v n k g yes yes') (tracksNo : Tracks v n k g no no') :
    Tracks v n k g (do if (← peek) = some kind then yes else no)
      (do if ← Buffered.check kind then yes' else no') := by
  refine tracks_peek fun kind? => ?_
  by_cases found : kind? = some kind
  · refine ⟨yes', by rwa [if_pos found], fun shows_ head => ?_⟩
    rw [Buffered.bind_ok (check_of_shows shows_ kind), decide_eq_true (head.trans found), if_pos rfl]
  · refine ⟨no', by rwa [if_neg found], fun shows_ head => ?_⟩
    rw [Buffered.bind_ok (check_no shows_ (head ▸ found)), if_neg (by decide)]

/-- Looks whether there is a next token. -/
theorem tracks_isAtEnd {next : Option Kind → Parse γ} {no' yes' : Buffered δ}
    (none : Tracks v n k g (next none) yes') (some : ∀ kind, Tracks v n k g (next (some kind)) no') :
    Tracks v n k g (peek >>= next) (do if ← Buffered.isAtEnd then yes' else no') := by
  refine tracks_peek fun kind? => ?_
  cases kind? with
  | none =>
    refine ⟨yes', none, fun shows_ head => ?_⟩
    have empty := List.head?_eq_none_iff.mp (Option.map_eq_none_iff.mp head)
    rw [Buffered.bind_ok (isAtEnd_nil shows_ empty), if_pos rfl]
  | some kind =>
    refine ⟨no', some kind, fun shows_ head => ?_⟩
    obtain ⟨t, first, -⟩ := Option.map_eq_some_iff.mp head
    obtain ⟨rest, here⟩ := List.head?_eq_some_iff.mp first
    rw [Buffered.bind_ok (isAtEnd_cons shows_ here), if_neg (by decide)]

/-! Lists. -/

theorem tracks_separated {item : Parse α} {item' : Buffered β} (items : Tracks v n 1 f item item')
    (overflow : ParseCause) (room : Nat) :
    Tracks v n 1 (List.map f) (separated item overflow room)
      (Buffered.separated item' overflow room) := by
  induction room with
  | zero => exact tracks_fail overflow
  | succ room ih =>
    refine items.bind fun first => tracks_accept ?_ (tracks_pure rfl)
    refine (ih.weaken (by omega) (Nat.zero_le 1)).bind fun rest => ?_
    exact tracks_pure rfl

theorem tracks_parenthesized {item : Parse α} {item' : Buffered β}
    (items : Tracks v n 1 f item item') (overflow unclosed : ParseCause) :
    Tracks v n 1 (fun r => (r.1.map f, r.2.relabel v.relabel)) (parenthesized item overflow unclosed)
      (Buffered.parenthesized item' overflow unclosed) := by
  have closed (as : List α) (n k : Nat) (few : k ≤ 1) :
      Tracks v n k (fun r => (r.1.map f, r.2.relabel v.relabel))
        (do return (as, ← expect (.symbol .rightParen) unclosed))
        (do return (as.map f, ← Buffered.expect (.symbol .rightParen) unclosed)) :=
    Tracks.weaken (tracks_expect fun _ => tracks_pure rfl) (Nat.le_refl n) few
  refine tracks_check ?_ ?_
  · exact (tracks_pure (a := []) rfl).bind fun as => closed as _ _ (Nat.le_refl 1)
  · exact (tracks_separated items overflow listLimit).bind fun as => closed as _ _ (Nat.zero_le 1)

end Parse
end ScopeScript
