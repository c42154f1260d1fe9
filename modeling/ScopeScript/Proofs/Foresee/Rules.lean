import ScopeScript.Proofs.Grammar.Ebnf
import ScopeScript.Proofs.Grammar.Sound

/-! What a parser knows of the tokens to come. At each point of a run there are the words with which
the input could still go on to a program; they are its future. A parser that has `before` as its
future and ends with `after` reads tokens behind which `before` goes on as `after` does, as far as
the next token tells. If it complains, what it read goes on somehow, but not with the next token.

Futures are written as in the grammar, what comes next at the front: in front of an expression in
parentheses the future is the words of expressions, then a parenthesis, then whatever follows. -/
namespace ScopeScript
open Grammar Computability

/-- The kind of the next token. Behind the last one, the input ends. -/
def Cursor.next (c : Cursor) : Kind := (c.rest.head?.map (·.kind)).getD .endOfInput

theorem Cursor.next_nil {c : Cursor} (empty : c.rest = []) : c.next = .endOfInput := by
  rw [next, empty]
  rfl

theorem Cursor.next_of_length_le_zero {c : Cursor} (size : c.rest.length ≤ 0) :
    c.next = .endOfInput :=
  c.next_nil (List.eq_nil_of_length_eq_zero (Nat.le_zero.mp size))

theorem Cursor.next_cons {c : Cursor} {t : Token} {rest : List Token} (here : c.rest = t :: rest) :
    c.next = t.kind := by
  rw [next, here]
  rfl

/-- Complaints about what the grammar lets through: targets of assignments and long lists. -/
def ParseCause.beyondGrammar : ParseCause → Bool
  | assignmentTarget | tooManyArguments | tooManyParameters => true
  | _ => false

/-- Between the two cursors stand the tokens `read`. -/
structure Cursor.Passes (c : Cursor) (read : List Token) (c' : Cursor) : Prop where
  rest : c.rest = read ++ c'.rest
  endLine : c'.endLine = c.endLine

namespace Cursor.Passes
variable {c c' c'' : Cursor} {read read' : List Token}

theorem refl (c : Cursor) : c.Passes [] c := ⟨rfl, rfl⟩

theorem trans (first : c.Passes read c') (second : c'.Passes read' c'') :
    c.Passes (read ++ read') c'' := by
  refine ⟨?_, second.endLine.trans first.endLine⟩
  rw [first.rest, second.rest, List.append_assoc]

theorem step {t : Token} {rest : List Token} (here : c.rest = t :: rest)
    (passes : Passes { c with rest } read c') : c.Passes (t :: read) c' :=
  ⟨here.trans (congrArg (t :: ·) passes.rest), passes.endLine⟩

theorem forall_rest {p : Token → Prop} (passes : c.Passes read c') (all : ∀ t ∈ c.rest, p t) :
    ∀ t ∈ c'.rest, p t :=
  fun t mem => all t (passes.rest ▸ List.mem_append_right read mem)

/-- The first token of what was read and is still to come. -/
theorem exists_cons (passes : c.Passes read c') (w : List Kind) :
    ∃ more, read.map (·.kind) ++ c'.next :: w = c.next :: more := by
  have split := passes.rest
  cases read with
  | nil =>
    have same : c.next = c'.next := by rw [next, next, split, List.nil_append]
    exact ⟨w, by rw [same]; rfl⟩
  | cons t read => exact ⟨_, by rw [c.next_cons split]; rfl⟩

end Cursor.Passes

namespace Parse
variable {α β : Type} {n m : Nat} {before middle after : Language Kind} {c : Cursor}
  {r : EStateM.Result ParseError Cursor α}

/-- What a run from `c` shows of the futures before and after it. -/
def Foresees (before after : Language Kind) (c : Cursor) :
    EStateM.Result ParseError Cursor α → Prop
  | .ok _ c' => ∃ read, c.Passes read c' ∧
      (∀ w ∈ after, read.map (·.kind) ++ w ∈ before) ∧
      ∀ w, read.map (·.kind) ++ c'.next :: w ∈ before → c'.next :: w ∈ after
  | .error e c' => e.cause.beyondGrammar = true ∨
      ∃ read, c.Passes read c' ∧ e.place = c'.place ∧
        (∃ w, read.map (·.kind) ++ w ∈ before) ∧
        ∀ w, read.map (·.kind) ++ c'.next :: w ∉ before

/-- On inputs of at most `n` tokens, `p` leads from one future to the other. -/
def Predicts (n : Nat) (before after : Language Kind) (p : Parse α) : Prop :=
  ∀ c, c.rest.length ≤ n → Foresees before after c (p c)

theorem foresees_pure (a : α) : Foresees after after c (.ok a c) :=
  ⟨[], .refl c, fun _ mem => mem, fun _ mem => mem⟩

/-- A future may be replaced by another one with the same words that begin with the next token. -/
theorem Foresees.widen {wider : Language Kind} (foresees : Foresees before after c r)
    (fewer : before ≤ wider) (same : residual c.next wider ≤ residual c.next before) :
    Foresees wider after c r := by
  cases r with
  | ok a c' =>
    obtain ⟨read, passes, into, from_⟩ := foresees
    refine ⟨read, passes, fun w mem => fewer (into w mem), fun w mem => from_ w ?_⟩
    obtain ⟨more, begins⟩ := passes.exists_cons w
    rw [begins] at mem ⊢
    exact same mem
  | error e c' =>
    obtain beyond | ⟨read, passes, place, ⟨w, some⟩, none⟩ := foresees
    · exact .inl beyond
    · refine .inr ⟨read, passes, place, ⟨w, fewer some⟩, fun w mem => none w ?_⟩
      obtain ⟨more, begins⟩ := passes.exists_cons w
      rw [begins] at mem ⊢
      exact same mem

/-- The next token tells that the input does not go on in the other way. -/
theorem Foresees.add {other : Language Kind} (foresees : Foresees before after c r)
    (none : residual c.next other = 0) : Foresees (before + other) after c r := by
  refine foresees.widen le_sup_left ?_
  rw [residual_add, none, add_zero]

/-- The next token is read. -/
theorem Foresees.step {t : Token} {rest : List Token} (here : c.rest = t :: rest)
    (foresees : Foresees (residual t.kind before) after { c with rest } r) :
    Foresees before after c r := by
  cases r with
  | ok a c' =>
    obtain ⟨read, passes, into, from_⟩ := foresees
    exact ⟨t :: read, passes.step here, into, from_⟩
  | error e c' =>
    obtain beyond | ⟨read, passes, place, some, none⟩ := foresees
    · exact .inl beyond
    · exact .inr ⟨t :: read, passes.step here, place, some, none⟩

/-- A complaint about a next token with which the future does not begin. -/
theorem foresees_fail [some : Open before] (none : residual c.next before = 0)
    (cause : ParseCause) : Foresees before after c ((fail cause : Parse α) c) := by
  refine .inr ⟨[], .refl c, rfl, some.exists_mem, fun w mem => ?_⟩
  have absent : w ∈ residual c.next before := mem
  rw [none] at absent
  exact absent.elim

theorem foresees_beyond {cause : ParseCause} (beyond : cause.beyondGrammar = true) :
    Foresees before after c ((fail cause : Parse α) c) :=
  .inl beyond

/-- One run after another. -/
theorem Foresees.trans {a : β} {c' : Cursor} (first : Foresees before middle c (.ok a c'))
    (second : Foresees middle after c' r) : Foresees before after c r := by
  obtain ⟨read, passes, into, from_⟩ := first
  cases r with
  | ok b c'' =>
    obtain ⟨read', passes', into', from'⟩ := second
    refine ⟨read ++ read', passes.trans passes', ?_, ?_⟩
    · intro w mem
      rw [List.map_append, List.append_assoc]
      exact into _ (into' w mem)
    · intro w mem
      rw [List.map_append, List.append_assoc] at mem
      obtain ⟨more, begins⟩ := passes'.exists_cons w
      rw [begins] at mem
      exact from' w (begins ▸ from_ more mem)
  | error e c'' =>
    obtain beyond | ⟨read', passes', place, ⟨w, some⟩, none⟩ := second
    · exact .inl beyond
    · refine .inr ⟨read ++ read', passes.trans passes', place, ⟨w, ?_⟩, ?_⟩
      · rw [List.map_append, List.append_assoc]
        exact into _ some
      · intro w mem
        rw [List.map_append, List.append_assoc] at mem
        obtain ⟨more, begins⟩ := passes'.exists_cons w
        rw [begins] at mem
        exact none w (begins ▸ from_ more mem)

theorem Foresees.bind {p : Parse α} {next : α → Parse β} (first : Foresees before middle c (p c))
    (second : ∀ a c', p c = .ok a c' → Foresees middle after c' (next a c')) :
    Foresees before after c ((p >>= next) c) := by
  cases found : p c with
  | error e c' =>
    have whole : (p >>= next) c = .error e c' := by simp only [Bind.bind, EStateM.bind, found]
    rw [found] at first
    rw [whole]
    exact first
  | ok a c' =>
    have whole : (p >>= next) c = next a c' := by simp only [Bind.bind, EStateM.bind, found]
    rw [found] at first
    rw [whole]
    exact first.trans (second a c' found)

theorem length_le_of_ok {p : Parse α} (first : Foresees before middle c (p c)) {a : α} {c' : Cursor}
    (found : p c = .ok a c') : c'.rest.length ≤ c.rest.length := by
  rw [found] at first
  obtain ⟨read, passes, -⟩ := first
  rw [passes.rest, List.length_append]
  exact Nat.le_add_left _ _

theorem Predicts.bind {p : Parse α} {next : α → Parse β} (first : Predicts n before middle p)
    (second : ∀ a, Predicts n middle after (next a)) : Predicts n before after (p >>= next) :=
  fun c size => (first c size).bind fun a c' found =>
    second a c' (Nat.le_trans (length_le_of_ok (first c size) found) size)

/-- A parser that reads at least one token leaves fewer for the next one. -/
theorem Predicts.bind_succ {p : Parse α} {next : α → Parse β}
    (first : Predicts (n + 1) before middle p) (reads : Reads p fun ts _ _ => 0 < ts.length)
    (second : ∀ a, Predicts n middle after (next a)) :
    Predicts (n + 1) before after (p >>= next) := by
  refine fun c size => (first c size).bind fun a c' found => second a c' ?_
  obtain ⟨ts, split, some⟩ := reads c a c' found
  rw [split, List.length_append] at size
  omega

theorem Predicts.weaken {p : Parse α} (predicts : Predicts n before after p) (shorter : m ≤ n) :
    Predicts m before after p :=
  fun c size => predicts c (Nat.le_trans size shorter)

theorem predicts_pure (a : α) : Predicts n after after (pure a) := fun _ _ => foresees_pure a

theorem predicts_freshId {next : ExprId → Parse α}
    (then_ : ∀ id, Predicts n before after (next id)) :
    Predicts n before after (freshId >>= next) :=
  Predicts.bind (fun _ _ => ⟨[], ⟨rfl, rfl⟩, fun _ mem => mem, fun _ mem => mem⟩) then_

/-! Looking at the next token and reading it. -/

theorem foresees_takeIf {select : Kind → Option α} {next : Option (α × Lexeme) → Parse β}
    (size : c.rest.length ≤ m + 1) (ends : select .endOfInput = none)
    (yes : ∀ a l, select c.next = some a →
      Predicts m (residual c.next before) after (next (some (a, l))))
    (no : select c.next = none → Foresees before after c (next none c)) :
    Foresees before after c ((takeIf select >>= next) c) := by
  cases here : c.rest with
  | nil =>
    have left : (takeIf select >>= next) c = next none c := by
      simp only [Bind.bind, EStateM.bind, takeIf, here]
    rw [left]
    exact no (by rw [c.next_nil here, ends])
  | cons t rest =>
    cases picks : select t.kind with
    | none =>
      have left : (takeIf select >>= next) c = next none c := by
        simp only [Bind.bind, EStateM.bind, takeIf, here, picks]
      rw [left]
      exact no (by rw [c.next_cons here, picks])
    | some a =>
      have taken : (takeIf select >>= next) c =
          next (some (a, t.toLexeme)) { c with rest := rest } := by
        simp only [Bind.bind, EStateM.bind, takeIf, here, picks]
      have inner := yes a t.toLexeme (by rw [c.next_cons here, picks])
      rw [c.next_cons here] at inner
      rw [taken]
      rw [here, List.length_cons] at size
      exact .step here (inner _ (Nat.le_of_succ_le_succ size))

theorem foresees_take? {kind : Kind} {next : Option Lexeme → Parse β}
    (size : c.rest.length ≤ m + 1) (inner : kind ≠ .endOfInput)
    (yes : ∀ l, c.next = kind → Predicts m (residual kind before) after (next (some l)))
    (no : c.next ≠ kind → Foresees before after c (next none c)) :
    Foresees before after c ((take? kind >>= next) c) := by
  simp only [take?, bind_assoc, pure_bind]
  refine foresees_takeIf size (if_neg inner.symm) (fun _ l taken => ?_) fun left => no ?_
  · have same : c.next = kind := by
      by_contra other
      rw [if_neg other] at taken
      cases taken
    rw [same]
    exact yes l same
  · rintro same
    rw [if_pos same] at left
    cases left

theorem foresees_accept {kind : Kind} {next : Bool → Parse β}
    (size : c.rest.length ≤ m + 1) (inner : kind ≠ .endOfInput)
    (yes : c.next = kind → Predicts m (residual kind before) after (next true))
    (no : c.next ≠ kind → Foresees before after c (next false c)) :
    Foresees before after c ((accept kind >>= next) c) := by
  simp only [accept, bind_assoc, pure_bind]
  exact foresees_take? size inner (fun _ same => yes same) no

/-- A token that must come next. -/
theorem predicts_expect {kind : Kind} {cause : ParseCause} {next : Lexeme → Parse β}
    (inner : kind ≠ .endOfInput) [Open middle] (then_ : ∀ l, Predicts n middle after (next l)) :
    Predicts n (words (.token kind) * middle) after (expect kind cause >>= next) := by
  intro c size
  simp only [expect, bind_assoc]
  refine foresees_take? (Nat.le_succ_of_le size) inner (fun l _ => ?_) fun other => ?_
  · rw [residual_token_mul, pure_bind]
    exact then_ l
  · change Foresees _ _ c ((fail cause : Parse β) c)
    exact foresees_fail (residual_token_mul_of_ne other middle) cause

theorem foresees_peek {next : Option Kind → Parse β}
    (then_ : ∀ kind?, c.rest.head?.map (·.kind) = kind? → Foresees before after c (next kind? c)) :
    Foresees before after c ((peek >>= next) c) :=
  then_ _ rfl

theorem foresees_check {kind : Kind} {yes no : Parse β} (inner : kind ≠ .endOfInput)
    (here : c.next = kind → Foresees before after c (yes c))
    (there : c.next ≠ kind → Foresees before after c (no c)) :
    Foresees before after c ((do if (← peek) = some kind then yes else no) c) := by
  refine foresees_peek fun kind? found => ?_
  split
  · next same => exact here (by rw [Cursor.next, found, same]; rfl)
  · next other =>
    refine there fun same => ?_
    cases rest : c.rest with
    | nil => exact inner (same.symm.trans (c.next_nil rest))
    | cons t rest' =>
      rw [c.next_cons rest] at same
      rw [rest, List.head?_cons, Option.map_some, same] at found
      exact other found.symm

/-! Lists. -/

/-- The tokens with which operands go on where they could end, given the operators between them. -/
def operandGoesOn (ts : List Tier) (k : Kind) : Bool :=
  k = .symbol .leftParen || k = .symbol .dot || ts.any fun t => (t.level k).isSome

/-- The tokens with which an expression goes on where it could end. -/
def goesOn (k : Kind) : Bool :=
  operandGoesOn [.logicOr, .logicAnd, .equality, .comparison, .term, .factor] k ||
    k = .symbol .equal

section Lists
variable {item : Language Kind} {p : Parse α}
  (items : ∀ middle, [Open middle] → Avoids middle goesOn → Predicts n (item * middle) middle p)
include items

theorem predicts_separated {overflow : ParseCause} (beyond : overflow.beyondGrammar = true)
    [Open after] (apart : Avoids after goesOn)
    (closes : residual (.symbol .comma) after = 0) (room : Nat) :
    Predicts n (item * ((words (.sign .comma) * item)∗ * after)) after
      (separated p overflow room) := by
  induction room with
  | zero => exact fun _ _ => foresees_beyond beyond
  | succ room ih =>
    have later : Avoids ((words (.sign .comma) * item)∗ * after) goesOn :=
      apart.kstar_mul ((starts_token (p := (· = .symbol .comma)) (by decide)).mul item)
        (by simp only [decide_eq_true_eq]; rintro _ rfl; rfl)
    refine (items _ later).bind fun first c size => ?_
    rw [kstar_mul, mul_assoc]
    refine foresees_accept (Nat.le_succ_of_le size) nofun (fun _ => ?_) fun other => ?_
    · rw [residual_add, closes, zero_add, residual_token_mul]
      exact ih.bind fun rest => predicts_pure _
    · exact (foresees_pure _).add (residual_token_mul_of_ne other _)

theorem predicts_parenthesized {overflow unclosed : ParseCause}
    (beyond : overflow.beyondGrammar = true) [Open after]
    (opens : ∀ b, residual (.symbol .rightParen) (item * b) = 0) :
    Predicts n
      (words (.sign .rightParen) * after +
        item * ((words (.sign .comma) * item)∗ * (words (.sign .rightParen) * after)))
      after (parenthesized p overflow unclosed) := by
  have closed (as : List α) : Predicts n (words (.sign .rightParen) * after) after
      (do return (as, ← expect (.symbol .rightParen) unclosed)) :=
    predicts_expect nofun fun _ => predicts_pure _
  intro c size
  refine foresees_check nofun (fun same => ?_) fun other => ?_
  · refine Foresees.add (closed [] c size) ?_
    rw [same]
    exact opens _
  · have list : Predicts n _ (words (.sign .rightParen) * after) (separated p overflow listLimit) :=
      predicts_separated items beyond (avoids_token_mul rfl after)
        (residual_token_mul_of_ne (by decide) after) listLimit
    rw [add_comm]
    exact Foresees.add (list.bind closed c size) (residual_token_mul_of_ne other after)

end Lists

end Parse
end ScopeScript
