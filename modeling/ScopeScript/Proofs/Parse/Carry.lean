import ScopeScript.Parse.Program
import ScopeScript.Proofs.Parse.Numbering
import ScopeScript.Proofs.Tree.Relabel

/-! Parsing carried over to another input. A parse that succeeds also succeeds when its nodes are
numbered from another number on, when its tokens stand on other lines, and when more tokens
follow. It reads the same tokens and builds the same tree up to numbers and lines. -/
namespace ScopeScript

/-- The other input: numbers from `base` on become numbers from `target` on, lines change by
`line`, and the tokens `behind` follow. An `else` among them would belong to an `if` in front. -/
structure Carrier where
  base : Nat
  target : Nat
  line : Nat → Nat
  behind : List Token
  endLine : Nat
  noElse : ∀ t ∈ behind.head?, t.kind ≠ .keyword .kwElse

namespace Carrier

def relabel (v : Carrier) : Relabel := ⟨fun id => id - v.base + v.target, v.line⟩

def cursor (v : Carrier) (c : Cursor) : Cursor :=
  ⟨c.rest.map (Token.relabel v.relabel) ++ v.behind, v.endLine, v.relabel.id c.nextId⟩

theorem relabel_succ (v : Carrier) {id : Nat} (above : v.base ≤ id) :
    v.relabel.id (id + 1) = v.relabel.id id + 1 := by
  show id + 1 - v.base + v.target = id - v.base + v.target + 1
  omega

/-- Looking one token ahead shows the same in both inputs. -/
def Ahead (v : Carrier) (c : Cursor) : Prop := c.rest ≠ [] ∨ v.behind = []

theorem Ahead.of_le {v : Carrier} {c c' : Cursor} (ahead : v.Ahead c')
    (fewer : c'.rest.length ≤ c.rest.length) : v.Ahead c := by
  rcases ahead with more | none
  · refine .inl fun empty => more ?_
    rw [empty] at fewer
    exact List.eq_nil_of_length_eq_zero (Nat.le_zero.mp fewer)
  · exact .inr none

theorem ahead_of_lt {v : Carrier} {c c' : Cursor} (fewer : c'.rest.length < c.rest.length) :
    v.Ahead c :=
  .inl fun empty => by simp [empty] at fewer

end Carrier

namespace Parse
variable {α β γ δ : Type} {v : Carrier} {closed closed' : Bool} {n k k' : Nat}

/-- On inputs of at most `n` tokens, what `p` does is carried over to `q`. It reads at least `k`
tokens. Unless it is `closed`, it may have looked at the token behind. -/
def Carries (v : Carrier) (closed : Bool) (n k : Nat) (f : α → β) (p : Parse α) (q : Parse β) :
    Prop :=
  ∀ c a c', c.rest.length ≤ n → v.base ≤ c.nextId → p c = .ok a c' →
    c'.rest.length + k ≤ c.rest.length ∧ v.base ≤ c'.nextId ∧
      (closed = true ∨ v.Ahead c' → q (v.cursor c) = .ok (f a) (v.cursor c'))

variable {f : α → β} {g : γ → δ} {p : Parse α} {q : Parse β}

theorem Carries.weaken {n' : Nat} (carries : Carries v closed n k f p q) (shorter : n' ≤ n)
    (fewer : k' ≤ k) : Carries v closed n' k' f p q := by
  intro c a c' size above ok
  obtain ⟨read, counts, same⟩ := carries c a c' (Nat.le_trans size shorter) above ok
  exact ⟨by omega, counts, same⟩

/-- One parser after another. The first may look ahead if the second reads on. -/
theorem Carries.bind {next : α → Parse γ} {next' : β → Parse δ}
    (first : Carries v closed n k f p q)
    (second : ∀ a, Carries v closed' (n - k) (k' - k) g (next a) (next' (f a)))
    (fits : closed = true ∨ closed' = false ∨ k < k') :
    Carries v closed' n k' g (p >>= next) (q >>= next') := by
  intro c b c' size above ok
  obtain ⟨a, d, left, right⟩ := bind_eq_ok.mp ok
  obtain ⟨read, above', same⟩ := first c a d size above left
  obtain ⟨read', above'', same'⟩ := second a d b c' (by omega) above' right
  refine ⟨by omega, above'', fun ready => ?_⟩
  have middle : closed = true ∨ v.Ahead d := by
    rcases fits with closed | rest
    · exact .inl closed
    · right
      rcases rest with rfl | reads
      · rcases ready with ⟨⟨⟩⟩ | ahead
        exact ahead.of_le (by omega)
      · exact Carrier.ahead_of_lt (by omega : c'.rest.length < d.rest.length)
  exact bind_eq_ok.mpr ⟨f a, v.cursor d, same middle, same' ready⟩

theorem carries_pure {a : α} {b : β} (same : f a = b) :
    Carries v closed n 0 f (pure a) (pure b) := by
  rintro c _ _ size above ⟨⟩
  exact ⟨Nat.le_refl _, above, fun _ => by rw [same]; rfl⟩

theorem carries_fail (cause : ParseCause) (q : Parse β) : Carries v closed n k f (fail cause) q :=
  nofun

/-- The number of a node. -/
theorem carries_freshId {next : ExprId → Parse γ} {next' : ExprId → Parse δ}
    (then_ : ∀ id, Carries v closed n k g (next id) (next' (v.relabel.id id))) :
    Carries v closed n k g (freshId >>= next) (freshId >>= next') := by
  intro c b c' size above ok
  have above_succ : v.base ≤ c.nextId + 1 := Nat.le_succ_of_le above
  obtain ⟨read, above', same⟩ :=
    then_ c.nextId { c with nextId := c.nextId + 1 } b c' size above_succ ok
  refine ⟨read, above', fun ready => bind_eq_ok.mpr ⟨_, _, rfl, ?_⟩⟩
  have same := same ready
  rwa [Carrier.cursor, v.relabel_succ above] at same

/-- A token that is read if it is of the right kind. Where it is not, the next token is looked at
only. -/
theorem carries_takeIf {select : Kind → Option α} {next : Option (α × Lexeme) → Parse γ}
    {next' : Option (α × Lexeme) → Parse δ}
    (yes : ∀ a l, Carries v closed (n - 1) (k - 1) g (next (some (a, l)))
      (next' (some (a, l.relabel v.relabel))))
    (no : Carries v closed n k g (next none) (next' none))
    (fits : closed = false ∨ 0 < k ∨ ∀ t ∈ v.behind.head?, select t.kind = none) :
    Carries v closed n k g (takeIf select >>= next) (takeIf select >>= next') := by
  intro c b c' size above ok
  obtain ⟨a, d, left, right⟩ := bind_eq_ok.mp ok
  cases rest : c.rest with
  | nil =>
    have here : takeIf select c = .ok none c := by simp only [takeIf, rest]
    rw [here] at left
    cases left
    obtain ⟨read, above', same⟩ := no c b c' size above right
    refine ⟨rest ▸ read, above', fun ready => ?_⟩
    have blind : ∀ t ∈ v.behind.head?, select t.kind = none := by
      rcases fits with rfl | reads | blind
      · rcases ready with ⟨⟨⟩⟩ | ahead
        have none := (ahead.of_le (by omega : _ ≤ c.rest.length)).resolve_left fun more => more rest
        simp [none]
      · rw [rest, List.length_nil] at read
        omega
      · exact blind
    refine bind_eq_ok.mpr ⟨.none, v.cursor c, ?_, same ready⟩
    simp only [takeIf, Carrier.cursor, rest, List.map_nil, List.nil_append]
    cases behind : v.behind with
    | nil => rfl
    | cons t _ => simp only [blind t (by simp [behind])]
  | cons t others =>
    cases found : select t.kind with
    | none =>
      have here : takeIf select c = .ok none c := by simp only [takeIf, rest, found]
      rw [here] at left
      cases left
      obtain ⟨read, above', same⟩ := no c b c' size above right
      refine ⟨rest ▸ read, above', fun ready => ?_⟩
      refine bind_eq_ok.mpr ⟨.none, v.cursor c, ?_, same ready⟩
      simp only [takeIf, Carrier.cursor, rest, List.map_cons, List.cons_append,
        Token.relabel_kind, found]
    | some x =>
      have here : takeIf select c = .ok (some (x, t.toLexeme)) { c with rest := others } := by
        simp only [takeIf, rest, found]
      rw [here] at left
      cases left
      have length : c.rest.length = others.length + 1 := by rw [rest, List.length_cons]
      have shorter : others.length ≤ n - 1 := by
        rw [rest, List.length_cons] at size
        omega
      obtain ⟨read, above', same⟩ :=
        yes x t.toLexeme { c with rest := others } b c' shorter above right
      simp only at read
      refine ⟨by rw [← rest]; omega, above', fun ready => ?_⟩
      refine bind_eq_ok.mpr ⟨some (x, t.toLexeme.relabel v.relabel), _, ?_, same ready⟩
      simp only [takeIf, Carrier.cursor, rest, List.map_cons, List.cons_append,
        Token.relabel_kind, found, Token.relabel_toLexeme]

theorem carries_take? {kind : Kind} {next : Option Lexeme → Parse γ}
    {next' : Option Lexeme → Parse δ}
    (yes : ∀ l, Carries v closed (n - 1) (k - 1) g (next (some l))
      (next' (some (l.relabel v.relabel))))
    (no : Carries v closed n k g (next none) (next' none))
    (fits : closed = false ∨ 0 < k ∨ ∀ t ∈ v.behind.head?, t.kind ≠ kind) :
    Carries v closed n k g (take? kind >>= next) (take? kind >>= next') := by
  simp only [take?, bind_assoc, pure_bind]
  exact carries_takeIf (fun _ l => yes l) no
    (fits.imp_right (Or.imp_right fun blind t here => if_neg (blind t here)))

theorem carries_accept {kind : Kind} {next : Bool → Parse γ} {next' : Bool → Parse δ}
    (yes : Carries v closed (n - 1) (k - 1) g (next true) (next' true))
    (no : Carries v closed n k g (next false) (next' false))
    (fits : closed = false ∨ 0 < k ∨ ∀ t ∈ v.behind.head?, t.kind ≠ kind) :
    Carries v closed n k g (accept kind >>= next) (accept kind >>= next') := by
  simp only [accept, bind_assoc, pure_bind]
  exact carries_take? (fun _ => yes) no fits

/-- A token that must be there. -/
theorem carries_expect {kind : Kind} {cause : ParseCause} {next : Lexeme → Parse γ}
    {next' : Lexeme → Parse δ}
    (then_ : ∀ l, Carries v closed (n - 1) (k - 1) g (next l) (next' (l.relabel v.relabel))) :
    Carries v closed n k g (expect kind cause >>= next) (expect kind cause >>= next') := by
  have reads : Carries v closed n (k - 1 + 1) g (expect kind cause >>= next)
      (expect kind cause >>= next') := by
    simp only [expect, bind_assoc]
    refine carries_take? (fun l => ?_) ?_ (.inr (.inl (Nat.succ_pos _)))
    · simpa only [pure_bind, Nat.add_sub_cancel] using then_ l
    · exact nofun
  exact reads.weaken (Nat.le_refl n) (by omega)

/-- The kind of the next token. -/
theorem carries_peek {next : Option Kind → Parse γ} {next' : Option Kind → Parse δ}
    (then_ : ∀ kind, Carries v closed n k g (next kind) (next' kind))
    (fits : closed = false ∨ 0 < k) :
    Carries v closed n k g (peek >>= next) (peek >>= next') := by
  intro c b c' size above ok
  obtain ⟨read, above', same⟩ := then_ _ c b c' size above ok
  refine ⟨read, above', fun ready => ?_⟩
  have ahead : v.Ahead c := by
    rcases fits with rfl | reads
    · rcases ready with ⟨⟨⟩⟩ | ahead
      exact ahead.of_le (by omega)
    · exact Carrier.ahead_of_lt (by omega : c'.rest.length < c.rest.length)
  have next : (v.cursor c).rest.head?.map (·.kind) = c.rest.head?.map (·.kind) := by
    rcases ahead with more | none
    · obtain ⟨t, rest, here⟩ := List.exists_cons_of_ne_nil more
      simp [Carrier.cursor, here]
    · simp [Carrier.cursor, none, Function.comp_def]
  refine bind_eq_ok.mpr ⟨_, _, rfl, ?_⟩
  rw [next]
  exact same ready

/-- With no token left and none behind, nothing more is read. -/
theorem carries_at_end {a : α} {q : Parse β} (stops : ∀ c, c.rest = [] → q c = .ok (f a) c) :
    Carries v false 0 0 f (pure a) q := by
  rintro c _ _ size above ⟨⟩
  refine ⟨Nat.le_refl _, above, fun ready => stops _ ?_⟩
  have empty : c.rest = [] := List.eq_nil_of_length_eq_zero (Nat.le_zero.mp size)
  rcases ready with ⟨⟨⟩⟩ | ahead
  simp [Carrier.cursor, empty, ahead.resolve_left fun more => more empty]

theorem carries_separated {item : Parse α} {item' : Parse β}
    (items : Carries v false n 1 f item item') (overflow : ParseCause) (room : Nat) :
    Carries v false n 1 (List.map f) (separated item overflow room)
      (separated item' overflow room) := by
  induction room generalizing n with
  | zero => exact carries_fail _ _
  | succ room ih =>
    refine items.bind (fun first => ?_) (.inr (.inl rfl))
    refine carries_accept ?_ (carries_pure rfl) (.inl rfl)
    have shorter : Carries v false (n - 1 - 1) 1 f item item' :=
      items.weaken (by omega) (Nat.le_refl 1)
    refine (ih shorter).bind (fun others => ?_) (.inr (.inl rfl))
    exact carries_pure rfl

theorem carries_parenthesized {item : Parse α} {item' : Parse β}
    (items : Carries v false n 1 f item item') (overflow unclosed : ParseCause) :
    Carries v false n 1 (fun r => (r.1.map f, r.2.relabel v.relabel))
      (parenthesized item overflow unclosed) (parenthesized item' overflow unclosed) := by
  refine carries_peek (fun next => ?_) (.inl rfl)
  dsimp only
  split
  · exact carries_expect fun _ => carries_pure rfl
  · refine (carries_separated items overflow listLimit).bind (fun as => ?_) (.inr (.inl rfl))
    exact carries_expect fun _ => carries_pure rfl

/-! Expressions. Nested expressions stand behind at least one token. -/

variable {expression expression' : Parse Expr} {bound bound' : Nat}

theorem carries_primary
    (inner : Carries v false n 1 (Expr.relabel v.relabel) expression expression') :
    Carries v false (n + 1) 1 (Expr.relabel v.relabel) (primary expression)
      (primary expression') := by
  refine carries_takeIf (fun start l => ?_) (carries_fail _ _) (.inl rfl)
  cases start with
  | literal value => exact carries_freshId fun _ => carries_pure rfl
  | this => exact carries_freshId fun _ => carries_pure rfl
  | name => exact carries_freshId fun _ => carries_pure rfl
  | group =>
    refine inner.bind (fun e => ?_) (.inr (.inl rfl))
    apply carries_expect
    intro _
    exact carries_freshId fun _ => carries_pure rfl

/-- With no token left, nothing follows an expression. -/
theorem calls_of_rest_eq_nil {c : Cursor} (empty : c.rest = []) (expression : Parse Expr)
    (bound : Nat) (subject : Expr) : calls expression bound subject c = .ok subject c := by
  cases bound with
  | zero => rfl
  | succ bound =>
    have none {β : Type} (select : Kind → Option β) : takeIf select c = .ok none c := by
      simp only [takeIf, empty]
    simp only [calls, accept, take?, bind_assoc, pure_bind]
    refine bind_eq_ok.mpr ⟨.none, c, none _, ?_⟩
    refine bind_eq_ok.mpr ⟨.none, c, none _, ?_⟩
    rfl

theorem carries_calls
    (inner : Carries v false n 1 (Expr.relabel v.relabel) expression expression')
    (within : bound ≤ n) (le : bound ≤ bound') (subject : Expr) :
    Carries v false bound 0 (Expr.relabel v.relabel) (calls expression bound subject)
      (calls expression' bound' (subject.relabel v.relabel)) := by
  induction bound generalizing bound' subject with
  | zero => exact carries_at_end fun c empty => calls_of_rest_eq_nil empty _ _ _
  | succ bound ih =>
    obtain ⟨bound', rfl⟩ : ∃ b, bound' = b + 1 := ⟨bound' - 1, by omega⟩
    refine carries_accept ?_ ?_ (.inl rfl)
    · have arguments := carries_parenthesized (inner.weaken (by omega : bound ≤ n) (Nat.le_refl 1))
        .tooManyArguments .argumentsClose
      refine arguments.bind (fun r => ?_) (.inr (.inl rfl))
      apply carries_freshId
      intro id
      have again := ih (by omega) (by omega : bound ≤ bound') (.call id subject r.1 r.2)
      rw [Expr.relabel, Expr.relabelEach_eq_map] at again
      exact again.weaken (by omega) (Nat.zero_le _)
    · refine carries_accept ?_ (carries_pure rfl) (.inl rfl)
      apply carries_expect
      intro property
      apply carries_freshId
      intro id
      have again := ih (by omega) (by omega : bound ≤ bound') (.get id subject property)
      exact again.weaken (by omega) (Nat.zero_le _)

theorem signs_of_rest_eq_nil {c : Cursor} (empty : c.rest = []) (bound : Nat) :
    signs bound c = .ok [] c := by
  cases bound with
  | zero => rfl
  | succ bound =>
    refine bind_eq_ok.mpr ⟨none, c, ?_, rfl⟩
    simp only [takeIf, empty]

/-- Signs on other lines. -/
abbrev relabelSigns (r : Relabel) (signs : List (UnaryOp × Lexeme)) : List (UnaryOp × Lexeme) :=
  signs.map fun s => (s.1, s.2.relabel r)

theorem carries_signs (le : bound ≤ bound') :
    Carries v false bound 0 (relabelSigns v.relabel) (signs bound) (signs bound') := by
  induction bound generalizing bound' with
  | zero => exact carries_at_end fun c empty => signs_of_rest_eq_nil empty _
  | succ bound ih =>
    obtain ⟨bound', rfl⟩ : ∃ b, bound' = b + 1 := ⟨bound' - 1, by omega⟩
    refine carries_takeIf (fun op l => ?_) (carries_pure rfl) (.inl rfl)
    refine (ih (by omega)).bind (fun rest => ?_) (.inr (.inl rfl))
    exact carries_pure rfl

theorem carries_signed (before : List (UnaryOp × Lexeme)) (operand : Expr) :
    Carries v false n 0 (Expr.relabel v.relabel) (signed before operand)
      (signed (relabelSigns v.relabel before) (operand.relabel v.relabel)) := by
  induction before with
  | nil => exact carries_pure rfl
  | cons sign rest ih =>
    refine ih.bind (fun inner => ?_) (.inr (.inl rfl))
    exact carries_freshId fun _ => carries_pure rfl

theorem carries_unary
    (inner : Carries v false n 1 (Expr.relabel v.relabel) expression expression')
    (le : n ≤ bound') :
    Carries v false (n + 1) 1 (Expr.relabel v.relabel) (unary n expression)
      (unary bound' expression') := by
  refine (carries_signs (by omega)).bind (fun before => ?_) (.inr (.inl rfl))
  refine (carries_primary inner).bind (fun subject => ?_) (.inr (.inl rfl))
  refine (carries_calls inner (Nat.le_refl n) le subject).bind (fun operand => ?_) (.inr (.inl rfl))
  exact carries_signed before operand

theorem chainFrom_of_rest_eq_nil {c : Cursor} (empty : c.rest = []) (level : Level)
    (operand : Parse Expr) (bound : Nat) (left : Expr) :
    chainFrom level operand bound left c = .ok left c := by
  cases bound with
  | zero => rfl
  | succ bound =>
    refine bind_eq_ok.mpr ⟨none, c, ?_, rfl⟩
    simp only [takeIf, empty]

theorem carries_chainFrom {operand operand' : Parse Expr} {level : Level}
    (operands : Carries v false n 1 (Expr.relabel v.relabel) operand operand')
    (within : bound ≤ n) (le : bound ≤ bound') (left : Expr) :
    Carries v false bound 0 (Expr.relabel v.relabel) (chainFrom level operand bound left)
      (chainFrom level operand' bound' (left.relabel v.relabel)) := by
  induction bound generalizing bound' left with
  | zero => exact carries_at_end fun c empty => chainFrom_of_rest_eq_nil empty _ _ _ _
  | succ bound ih =>
    obtain ⟨bound', rfl⟩ : ∃ b, bound' = b + 1 := ⟨bound' - 1, by omega⟩
    refine carries_takeIf (fun op sign => ?_) (carries_pure rfl) (.inl rfl)
    have right := operands.weaken (by omega : bound ≤ n) (Nat.le_refl 1)
    refine right.bind (fun right => ?_) (.inr (.inl rfl))
    apply carries_freshId
    intro id
    have again := ih (by omega) (by omega : bound ≤ bound') (op.node id sign left right)
    have same : (op.node id sign left right).relabel v.relabel = op.node (v.relabel.id id)
        (sign.relabel v.relabel) (left.relabel v.relabel) (right.relabel v.relabel) := by
      cases op <;> rfl
    rw [same] at again
    exact again.weaken (by omega) (Nat.zero_le _)

theorem carries_operation
    (inner : Carries v false n 1 (Expr.relabel v.relabel) expression expression')
    (le : n ≤ bound') :
    Carries v false (n + 1) 1 (Expr.relabel v.relabel) (operation n expression)
      (operation bound' expression') := by
  unfold operation
  induction Level.all with
  | nil => exact carries_unary inner le
  | cons level levels ih =>
    refine ih.bind (fun left => ?_) (.inr (.inl rfl))
    exact carries_chainFrom (ih.weaken (Nat.le_succ n) (Nat.le_refl 1)) (Nat.le_refl n) le left

theorem carries_assignment
    (inner : Carries v false n 1 (Expr.relabel v.relabel) expression expression')
    (le : n ≤ bound') :
    Carries v false (n + 1) 1 (Expr.relabel v.relabel) (assignment n expression)
      (assignment bound' expression') := by
  refine (carries_operation inner le).bind (fun target => ?_) (.inr (.inl rfl))
  refine carries_take? (fun sign => ?_) (carries_pure rfl) (.inl rfl)
  refine (inner.weaken (by omega) (Nat.le_refl 1)).bind (fun value => ?_) (.inr (.inl rfl))
  cases target with
  | var id name => exact carries_freshId fun _ => carries_pure rfl
  | get id object property => exact carries_freshId fun _ => carries_pure rfl
  | literal _ _ | group _ _ | this _ _ | assign _ _ _ | unary _ _ _ _ | binary _ _ _ _ _
  | logical _ _ _ _ _ | call _ _ _ _ | set _ _ _ _ => exact nofun

theorem carries_expression (le : n ≤ bound') :
    Carries v false n 1 (Expr.relabel v.relabel) (Parse.expression n)
      (Parse.expression bound') := by
  induction n generalizing bound' with
  | zero => exact carries_fail _ _
  | succ n ih =>
    obtain ⟨bound', rfl⟩ : ∃ b, bound' = b + 1 := ⟨bound' - 1, by omega⟩
    exact carries_assignment (ih (by omega)) (by omega)

/-! Statements end with a token of their own, but an `if` also looks for its `else`. -/

theorem carries_optionalBefore (ending : Kind) (le : n ≤ bound') :
    Carries v false n 0 (Option.map (Expr.relabel v.relabel)) (optionalBefore ending n)
      (optionalBefore ending bound') := by
  refine carries_peek (fun next => ?_) (.inl rfl)
  split
  · exact carries_pure rfl
  · refine (carries_expression le).bind (fun e => ?_) (.inr (.inl rfl))
    exact carries_pure rfl

theorem carries_expressionStatement (le : n ≤ bound') :
    Carries v true n 2 (Stmt.relabel v.relabel) (expressionStatement n)
      (expressionStatement bound') := by
  refine (carries_expression le).bind (fun e => ?_) (.inr (.inr (by decide)))
  exact carries_expect fun _ => carries_pure rfl

theorem carries_printStatement (le : n ≤ bound') :
    Carries v true n 2 (Stmt.relabel v.relabel) (printStatement n) (printStatement bound') := by
  refine (carries_expression le).bind (fun e => ?_) (.inr (.inr (by decide)))
  exact carries_expect fun _ => carries_pure rfl

theorem carries_returnStatement (le : n ≤ bound') (keyword : Lexeme) :
    Carries v true n 1 (Stmt.relabel v.relabel) (returnStatement n keyword)
      (returnStatement bound' (keyword.relabel v.relabel)) := by
  refine (carries_optionalBefore _ le).bind (fun e => ?_) (.inr (.inr (by decide)))
  exact carries_expect fun _ => carries_pure rfl

theorem carries_varDeclaration (le : n ≤ bound') :
    Carries v true n 2 (Stmt.relabel v.relabel) (varDeclaration n) (varDeclaration bound') := by
  apply carries_expect
  intro name
  refine carries_accept ?_ ?_ (.inr (.inl (by decide)))
  · have initial : Carries v false (n - 1 - 1) 1 (Expr.relabel v.relabel) (Parse.expression n)
        (Parse.expression bound') := (carries_expression le).weaken (by omega) (Nat.le_refl 1)
    refine Carries.weaken (k := 2) ?_ (Nat.le_refl _) (Nat.zero_le 2)
    refine initial.bind (fun e => ?_) (.inr (.inr (by decide)))
    exact carries_expect fun _ => carries_pure rfl
  · exact carries_expect fun _ => carries_pure rfl

variable {statement statement' declaration declaration' : Parse Stmt}

theorem carries_ifStatement
    (inner : Carries v true n 1 (Stmt.relabel v.relabel) statement statement') (le : n ≤ bound') :
    Carries v true n 1 (Stmt.relabel v.relabel) (ifStatement n statement)
      (ifStatement bound' statement') := by
  apply carries_expect
  intro _
  refine Carries.weaken (k := 3) ?_ (Nat.le_refl _) (Nat.zero_le 3)
  have condition : Carries v false (n - 1) 1 (Expr.relabel v.relabel) (Parse.expression n)
      (Parse.expression bound') := (carries_expression le).weaken (by omega) (Nat.le_refl 1)
  refine condition.bind (fun condition => ?_) (.inr (.inr (by decide)))
  apply carries_expect
  intro _
  refine (inner.weaken (by omega) (Nat.le_refl 1)).bind (fun yes => ?_) (.inl rfl)
  -- at the end of the input, the tokens behind do not begin with `else`
  refine carries_accept ?_ (carries_pure rfl) (.inr (.inr v.noElse))
  refine (inner.weaken (by omega) (Nat.le_refl 1)).bind (fun no => ?_) (.inl rfl)
  exact carries_pure rfl

theorem carries_whileStatement
    (inner : Carries v true n 1 (Stmt.relabel v.relabel) statement statement') (le : n ≤ bound') :
    Carries v true n 1 (Stmt.relabel v.relabel) (whileStatement n statement)
      (whileStatement bound' statement') := by
  apply carries_expect
  intro _
  refine Carries.weaken (k := 3) ?_ (Nat.le_refl _) (Nat.zero_le 3)
  have condition : Carries v false (n - 1) 1 (Expr.relabel v.relabel) (Parse.expression n)
      (Parse.expression bound') := (carries_expression le).weaken (by omega) (Nat.le_refl 1)
  refine condition.bind (fun condition => ?_) (.inr (.inr (by decide)))
  apply carries_expect
  intro _
  refine (inner.weaken (by omega) (Nat.le_refl 1)).bind (fun body => ?_) (.inl rfl)
  exact carries_pure rfl

theorem Stmt.forLoop_relabel (r : Relabel) (first : Option Stmt) (condition : Expr)
    (step : Option Expr) (body : Stmt) :
    (Stmt.forLoop first condition step body).relabel r =
      .forLoop (first.map (Stmt.relabel r)) (condition.relabel r) (step.map (Expr.relabel r))
        (body.relabel r) := by
  cases first <;> cases step <;> rfl

theorem carries_forFirst (le : n ≤ bound') :
    Carries v true n 1 (Option.map (Stmt.relabel v.relabel)) (forFirst n) (forFirst bound') := by
  refine carries_accept (carries_pure rfl) ?_ (.inr (.inl (by decide)))
  refine carries_accept ?_ ?_ (.inr (.inl (by decide)))
  · refine ((carries_varDeclaration le).weaken (by omega) (Nat.le_refl 2)).bind (fun s => ?_)
      (.inl rfl)
    exact carries_pure rfl
  · refine (carries_expressionStatement le).bind (fun s => ?_) (.inl rfl)
    exact carries_pure rfl

theorem carries_forStatement
    (inner : Carries v true n 1 (Stmt.relabel v.relabel) statement statement') (le : n ≤ bound') :
    Carries v true n 1 (Stmt.relabel v.relabel) (forStatement n statement)
      (forStatement bound' statement') := by
  apply carries_expect
  intro _
  refine Carries.weaken (k := 4) ?_ (Nat.le_refl _) (Nat.zero_le 4)
  refine ((carries_forFirst le).weaken (by omega) (Nat.le_refl 1)).bind (fun first => ?_) (.inl rfl)
  refine ((carries_optionalBefore _ le).weaken (by omega) (Nat.le_refl 0)).bind
    (fun condition => ?_) (.inr (.inr (by decide)))
  apply carries_expect
  intro _
  refine ((carries_optionalBefore _ le).weaken (by omega) (Nat.le_refl 0)).bind
    (fun step => ?_) (.inr (.inr (by decide)))
  apply carries_expect
  intro _
  refine (inner.weaken (by omega) (Nat.le_refl 1)).bind (fun body => ?_) (.inl rfl)
  cases condition with
  | some e => exact carries_pure (Stmt.forLoop_relabel _ first e step body)
  | none => exact carries_freshId fun id => carries_pure (Stmt.forLoop_relabel _ first _ step body)

theorem untilBrace_of_rest_eq_nil {c : Cursor} (empty : c.rest = []) (item : Parse α)
    (bound : Nat) : untilBrace item bound c = .ok [] c := by
  cases bound with
  | zero => rfl
  | succ bound =>
    refine bind_eq_ok.mpr ⟨none, c, ?_, rfl⟩
    simp only [peek, empty, List.head?_nil, Option.map_none]

theorem carries_untilBrace {item : Parse α} {item' : Parse β}
    (items : Carries v true n 1 f item item') (within : bound ≤ n) (le : bound ≤ bound') :
    Carries v false bound 0 (List.map f) (untilBrace item bound) (untilBrace item' bound') := by
  induction bound generalizing bound' with
  | zero => exact carries_at_end fun c empty => untilBrace_of_rest_eq_nil empty _ _
  | succ bound ih =>
    obtain ⟨bound', rfl⟩ : ∃ b, bound' = b + 1 := ⟨bound' - 1, by omega⟩
    refine carries_peek (fun next => ?_) (.inl rfl)
    split
    · exact carries_pure rfl
    · exact carries_pure rfl
    · refine (items.weaken within (Nat.le_refl 1)).bind (fun first => ?_) (.inl rfl)
      refine (ih (by omega) (by omega)).bind (fun rest => ?_) (.inr (.inl rfl))
      exact carries_pure rfl

theorem carries_block
    (inner : Carries v true n 1 (Stmt.relabel v.relabel) declaration declaration')
    (le : n ≤ bound') :
    Carries v true n 1 (Stmt.relabelEach v.relabel) (block n declaration)
      (block bound' declaration') := by
  refine (carries_untilBrace inner (Nat.le_refl n) le).bind (fun body => ?_)
    (.inr (.inr (by decide)))
  exact carries_expect fun _ => carries_pure (Stmt.relabelEach_eq_map _ body)

theorem carries_function
    (inner : Carries v true n 1 (Stmt.relabel v.relabel) declaration declaration')
    (le : n ≤ bound') (role : FunctionRole) :
    Carries v true n 1 (FunctionDecl.relabel v.relabel) (function n declaration role)
      (function bound' declaration' role) := by
  apply carries_expect
  intro name
  refine Carries.weaken (k := 3) ?_ (Nat.le_refl _) (Nat.zero_le 3)
  apply carries_expect
  intro _
  have names : Carries v false (n - 1 - 1) 1 (Lexeme.relabel v.relabel)
      (expect .identifier .parameterName) (expect .identifier .parameterName) := by
    rw [← bind_pure (expect .identifier .parameterName)]
    exact carries_expect fun _ => carries_pure rfl
  refine (carries_parenthesized names _ _).bind (fun params => ?_) (.inr (.inr (by decide)))
  apply carries_expect
  intro _
  refine ((carries_block inner le).weaken (by omega) (Nat.le_refl 1)).bind (fun body => ?_)
    (.inl rfl)
  exact carries_pure rfl

theorem carries_superclass :
    Carries v false n 0 (Option.map (Superclass.relabel v.relabel)) superclass superclass := by
  refine carries_accept ?_ (carries_pure rfl) (.inl rfl)
  apply carries_expect
  intro name
  exact carries_freshId fun _ => carries_pure rfl

theorem carries_classDeclaration
    (inner : Carries v true n 1 (Stmt.relabel v.relabel) declaration declaration')
    (le : n ≤ bound') :
    Carries v true n 1 (Stmt.relabel v.relabel) (classDeclaration n declaration)
      (classDeclaration bound' declaration') := by
  apply carries_expect
  intro name
  refine Carries.weaken (k := 2) ?_ (Nat.le_refl _) (Nat.zero_le 2)
  refine carries_superclass.bind (fun parent => ?_) (.inr (.inr (by decide)))
  apply carries_expect
  intro _
  have methods := carries_untilBrace (carries_function inner le .method) (Nat.le_refl n) le
  refine (methods.weaken (by omega) (Nat.le_refl 0)).bind (fun methods => ?_)
    (.inr (.inr (by decide)))
  refine carries_expect fun _ => carries_pure ?_
  rw [Stmt.relabel, FunctionDecl.relabelEach_eq_map]

theorem carries_statementWith
    (statements : Carries v true n 1 (Stmt.relabel v.relabel) statement statement')
    (declarations : Carries v true n 1 (Stmt.relabel v.relabel) declaration declaration')
    (le : n ≤ bound') :
    Carries v true (n + 1) 1 (Stmt.relabel v.relabel) (statementWith n statement declaration)
      (statementWith bound' statement' declaration') := by
  refine carries_takeIf (fun start l => ?_) ?_ (.inr (.inl (by decide)))
  · cases start with
    | forLoop => exact (carries_forStatement statements le).weaken (Nat.le_refl _) (Nat.zero_le _)
    | ifElse => exact (carries_ifStatement statements le).weaken (Nat.le_refl _) (Nat.zero_le _)
    | whileLoop =>
      exact (carries_whileStatement statements le).weaken (Nat.le_refl _) (Nat.zero_le _)
    | returns => exact (carries_returnStatement le l).weaken (Nat.le_refl _) (Nat.zero_le _)
    | block =>
      refine (carries_block declarations le).bind (fun body => ?_) (.inl rfl)
      exact carries_pure rfl
    | print => exact (carries_printStatement le).weaken (Nat.le_refl _) (Nat.zero_le _)
  · exact (carries_expressionStatement (Nat.succ_le_succ le)).weaken (Nat.le_refl _) (by decide)

theorem carries_declarationWith
    (statements : Carries v true n 1 (Stmt.relabel v.relabel) statement statement')
    (declarations : Carries v true n 1 (Stmt.relabel v.relabel) declaration declaration')
    (le : n ≤ bound') :
    Carries v true (n + 1) 1 (Stmt.relabel v.relabel) (declarationWith n statement declaration)
      (declarationWith bound' statement' declaration') := by
  refine carries_takeIf (fun start l => ?_) ?_ (.inr (.inl (by decide)))
  · cases start with
    | classDecl =>
      exact (carries_classDeclaration declarations le).weaken (Nat.le_refl _) (Nat.zero_le _)
    | function =>
      refine (carries_function declarations le .function).bind (fun f => ?_) (.inl rfl)
      exact carries_pure rfl
    | var => exact (carries_varDeclaration le).weaken (Nat.le_refl _) (Nat.zero_le _)
  · exact carries_statementWith statements declarations le

theorem carries_statement_declaration (le : n ≤ bound') :
    Carries v true n 1 (Stmt.relabel v.relabel) (Parse.statement n) (Parse.statement bound') ∧
      Carries v true n 1 (Stmt.relabel v.relabel) (Parse.declaration n)
        (Parse.declaration bound') := by
  induction n generalizing bound' with
  | zero => exact ⟨carries_fail _ _, carries_fail _ _⟩
  | succ n ih =>
    obtain ⟨bound', rfl⟩ : ∃ b, bound' = b + 1 := ⟨bound' - 1, by omega⟩
    obtain ⟨statements, declarations⟩ := ih (by omega : n ≤ bound')
    exact ⟨carries_statementWith statements declarations (by omega),
      carries_declarationWith statements declarations (by omega)⟩

end Parse
theorem parseFrom_of_rest_eq_nil {c : Cursor} (empty : c.rest = []) (bound : Nat) :
    parseFrom bound c = ⟨[], [], c.nextId⟩ := by
  cases bound with
  | zero => rfl
  | succ bound => simp only [parseFrom, empty]

theorem parseFrom_of_ok {bound : Nat} {c c' : Cursor} {s : Stmt} (more : c.rest ≠ [])
    (ok : Parse.declaration (bound + 1) c = .ok s c') :
    parseFrom (bound + 1) c =
      { parseFrom bound c' with statements := s :: (parseFrom bound c').statements } := by
  obtain ⟨t, rest, here⟩ := List.exists_cons_of_ne_nil more
  simp only [parseFrom, here, ok]

/-- Where there are tokens and no errors, the first statement is parsed without an error. -/
theorem declaration_of_clean {bound : Nat} {c : Cursor} (more : c.rest ≠ [])
    (clean : (parseFrom (bound + 1) c).errors = []) :
    ∃ s c', Parse.declaration (bound + 1) c = .ok s c' := by
  obtain ⟨t, rest, here⟩ := List.exists_cons_of_ne_nil more
  cases found : Parse.declaration (bound + 1) c with
  | ok s c' => exact ⟨s, c', rfl⟩
  | error e c' => simp [parseFrom, here, found] at clean

/-- A program without errors in front of other tokens: its statements come first, and the other
tokens are parsed as if they stood alone. -/
theorem parseFrom_carry {v : Carrier} {bound bound' : Nat} {c : Cursor}
    (size : c.rest.length ≤ bound) (le : bound ≤ bound')
    (size' : (v.cursor c).rest.length ≤ bound') (above : v.base ≤ c.nextId)
    (clean : (parseFrom bound c).errors = []) :
    ∃ b, v.behind.length ≤ b ∧ parseFrom bound' (v.cursor c) =
      let more := parseFrom b ⟨v.behind, v.endLine, v.relabel.id (parseFrom bound c).nextId⟩
      { more with statements :=
        (parseFrom bound c).statements.map (Stmt.relabel v.relabel) ++ more.statements } := by
  induction bound generalizing bound' c with
  | zero =>
    have empty : c.rest = [] := List.eq_nil_of_length_eq_zero (Nat.le_zero.mp size)
    rw [parseFrom_of_rest_eq_nil empty]
    rw [Carrier.cursor, empty] at size' ⊢
    exact ⟨bound', size', rfl⟩
  | succ bound ih =>
    by_cases empty : c.rest = []
    · rw [parseFrom_of_rest_eq_nil empty]
      rw [Carrier.cursor, empty] at size' ⊢
      exact ⟨bound', size', rfl⟩
    · obtain ⟨bound', rfl⟩ : ∃ b, bound' = b + 1 := ⟨bound' - 1, by omega⟩
      obtain ⟨s, c', found⟩ := declaration_of_clean empty clean
      obtain ⟨read, above', same⟩ :=
        (Parse.carries_statement_declaration (v := v) le).2 c s c' size above found
      have more : (v.cursor c).rest ≠ [] := by simp [Carrier.cursor, empty]
      rw [parseFrom_of_ok more (same (.inl rfl))]
      rw [parseFrom_of_ok empty found] at clean ⊢
      have fewer : (v.cursor c').rest.length ≤ bound' := by
        simp only [Carrier.cursor, List.length_append, List.length_map] at size' ⊢
        omega
      obtain ⟨b, room, rest⟩ := ih (by omega) (by omega) fewer above' clean
      refine ⟨b, room, ?_⟩
      rw [rest]
      rfl

/-- With nothing behind, the whole program is carried over. -/
theorem parseFrom_carry_whole {v : Carrier} (none : v.behind = []) {bound bound' : Nat}
    {c : Cursor} (size : c.rest.length ≤ bound) (le : bound ≤ bound') (above : v.base ≤ c.nextId)
    (clean : (parseFrom bound c).errors = []) :
    parseFrom bound' (v.cursor c) =
      ⟨Stmt.relabelEach v.relabel (parseFrom bound c).statements, [],
        v.relabel.id (parseFrom bound c).nextId⟩ := by
  have size' : (v.cursor c).rest.length ≤ bound' := by
    simp only [Carrier.cursor, none, List.append_nil, List.length_map]
    omega
  obtain ⟨b, _, carried⟩ := parseFrom_carry size le size' above clean
  rw [carried, none, parseFrom_of_rest_eq_nil rfl, Stmt.relabelEach_eq_map]
  simp only [List.append_nil]

end ScopeScript
