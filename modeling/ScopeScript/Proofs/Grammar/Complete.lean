import ScopeScript.Proofs.Grammar.Sound

/-! The parser accepts all of the grammar. A derivation whose tokens stand in front of tokens that
cannot go on with it is read to its end, and its tree is built. In a derivation with rounds, each
round brings the parser back to the head of the loop that reads them. -/
namespace ScopeScript
open Grammar

namespace Parse
variable {α β γ : Type} {p : Parse α} {q : α → Parse β} {ts us rest : List Token}
  {P : α → Prop} {K L : Parse β → Prop}

/-- In front of `rest`, `p` reads `ts` and goes on as one of the parsers in `K`. -/
def Leads (p : Parse α) (ts rest : List Token) (K : Parse α → Prop) : Prop :=
  ∀ c, c.rest = ts ++ rest → ∃ r c', p c = r c' ∧ c'.rest = rest ∧ K r

/-- In front of `rest`, `p` reads `ts` and builds something of this kind. -/
abbrev Builds (p : Parse α) (ts rest : List Token) (P : α → Prop) : Prop :=
  Leads p ts rest fun r => ∃ a, r = pure a ∧ P a

theorem Leads.trans {p : Parse β} (first : Leads p ts (us ++ rest) K)
    (next : ∀ r, K r → Leads r us rest L) : Leads p (ts ++ us) rest L := by
  intro c here
  rw [List.append_assoc] at here
  obtain ⟨r, d, left, read, held⟩ := first c here
  obtain ⟨r', c', right, read', held'⟩ := next r held d read
  exact ⟨r', c', left.trans right, read', held'⟩

theorem Leads.imp {p : Parse β} (leads : Leads p ts rest K) (weaker : ∀ r, K r → L r) :
    Leads p ts rest L := by
  intro c here
  obtain ⟨r, c', same, read, held⟩ := leads c here
  exact ⟨r, c', same, read, weaker r held⟩

theorem leads_here {p : Parse β} (held : K p) : Leads p [] rest K := fun c here =>
  ⟨p, c, rfl, here, held⟩

theorem builds_pure {a : α} (good : P a) : Builds (pure a) [] rest P := leads_here ⟨a, rfl, good⟩

/-- One parser after another. -/
theorem Leads.bind (first : Builds p ts (us ++ rest) P) (next : ∀ a, P a → Leads (q a) us rest K) :
    Leads (p >>= q) (ts ++ us) rest K := by
  intro c here
  rw [List.append_assoc] at here
  obtain ⟨_, d, left, read, a, rfl, good⟩ := first c here
  obtain ⟨r, c', right, read', held⟩ := next a good d read
  refine ⟨r, c', ?_, read', held⟩
  have ok : p c = .ok a d := left
  rw [← right]
  simp only [Bind.bind, EStateM.bind, ok]

/-- The second parser reads nothing more. -/
theorem Leads.bindLast (first : Builds p ts rest P) (next : ∀ a, P a → Leads (q a) [] rest K) :
    Leads (p >>= q) ts rest K := by
  rw [← List.append_nil ts]
  exact Leads.bind first next

theorem leads_freshId {q : ExprId → Parse β} (next : ∀ id, Leads (q id) ts rest K) :
    Leads (freshId >>= q) ts rest K :=
  fun c here => next c.nextId { c with nextId := c.nextId + 1 } here

theorem leads_peek {q : Option Kind → Parse β}
    (next : Leads (q ((ts ++ rest).head?.map (·.kind))) ts rest K) :
    Leads (peek >>= q) ts rest K := by
  intro c here
  obtain ⟨r, c', same, read, held⟩ := next c here
  refine ⟨r, c', ?_, read, held⟩
  rw [← same, ← here]
  rfl

/-- A token that is read because it is of the right kind. -/
theorem leads_take {select : Kind → Option γ} {a : γ} {t : Token}
    {q : Option (γ × Lexeme) → Parse β} (found : select t.kind = some a)
    (next : Leads (q (some (a, t.toLexeme))) ts rest K) :
    Leads (takeIf select >>= q) (t :: ts) rest K := by
  intro c here
  obtain ⟨r, c', same, read, held⟩ := next { c with rest := ts ++ rest } rfl
  refine ⟨r, c', ?_, read, held⟩
  rw [← same]
  simp only [Bind.bind, EStateM.bind, takeIf, here, List.cons_append, found]

/-- A token that is left because it is of another kind. -/
theorem leads_leave {select : Kind → Option γ} {q : Option (γ × Lexeme) → Parse β}
    (other : ∀ t ∈ (ts ++ rest).head?, select t.kind = none) (next : Leads (q none) ts rest K) :
    Leads (takeIf select >>= q) ts rest K := by
  intro c here
  obtain ⟨r, c', same, read, held⟩ := next c here
  refine ⟨r, c', ?_, read, held⟩
  have left : takeIf select c = .ok none c := by
    rw [← here] at other
    simp only [takeIf]
    split
    · rfl
    · next t others found => simp only [other t (by rw [found]; rfl)]
  rw [← same]
  simp only [Bind.bind, EStateM.bind, left]

variable {t : Token} {kind : Kind}

theorem leads_take? {q : Option Lexeme → Parse β} (same : t.kind = kind)
    (next : Leads (q (some t.toLexeme)) ts rest K) : Leads (take? kind >>= q) (t :: ts) rest K := by
  simp only [take?, bind_assoc, pure_bind]
  exact leads_take (if_pos same) next

theorem leads_leave? {q : Option Lexeme → Parse β}
    (other : ∀ t ∈ (ts ++ rest).head?, t.kind ≠ kind) (next : Leads (q none) ts rest K) :
    Leads (take? kind >>= q) ts rest K := by
  simp only [take?, bind_assoc, pure_bind]
  exact leads_leave (fun t head => if_neg (other t head)) next

theorem leads_accept {q : Bool → Parse β} (same : t.kind = kind)
    (next : Leads (q true) ts rest K) : Leads (accept kind >>= q) (t :: ts) rest K := by
  simp only [accept, bind_assoc, pure_bind]
  exact leads_take? same next

theorem leads_refuse {q : Bool → Parse β} (other : ∀ t ∈ (ts ++ rest).head?, t.kind ≠ kind)
    (next : Leads (q false) ts rest K) : Leads (accept kind >>= q) ts rest K := by
  simp only [accept, bind_assoc, pure_bind]
  exact leads_leave? other next

theorem leads_expect {cause : ParseCause} {q : Lexeme → Parse β} (same : t.kind = kind)
    (next : Leads (q t.toLexeme) ts rest K) :
    Leads (expect kind cause >>= q) (t :: ts) rest K := by
  simp only [expect, bind_assoc]
  refine leads_take? same ?_
  simpa only [pure_bind] using next

/-! Lists. -/

/-- What follows an item of a list. -/
def ItemEnds (rest : List Token) : Prop :=
  ∃ t us, rest = t :: us ∧ (t.kind = .symbol .comma ∨ t.kind = .symbol .rightParen)

/-- Each of these parts begins in some way, and the item parser reads it where what follows is of
some kind and no more than `n` tokens are left. -/
def BuildsItems (item : Parse α) (f : α → γ) (n : Nat) (starts : Kind → Prop)
    (after : List Token → Prop) (parts : List (Passage γ)) : Prop :=
  ∀ p ∈ parts, (∃ first us, p.tokens = first :: us ∧ starts first.kind) ∧
    ∀ rest, after rest → (p.tokens ++ rest).length ≤ n →
      Builds item p.tokens rest (f · = p.tree)

/-- The parts of a list with commas. -/
abbrev BuildsListed (item : Parse α) (f : α → γ) (n : Nat) (parts : List (Passage γ)) : Prop :=
  BuildsItems item f n (· ≠ .symbol .rightParen) ItemEnds parts

variable {item : Parse α} {f : α → γ} {n : Nat}

theorem builds_separated {parts : List (Passage γ)} (items : BuildsListed item f n parts)
    (listed : Listed (parts.map Passage.tokens) ts) (some : parts ≠ []) {closing : Token}
    (isClosing : closing.kind = .symbol .rightParen) {room : Nat} (few : parts.length ≤ room)
    (size : (ts ++ closing :: rest).length ≤ n) (overflow : ParseCause) :
    Builds (separated item overflow room) ts (closing :: rest)
      fun as => as.map f = parts.map Passage.tree := by
  induction parts generalizing ts room with
  | nil => contradiction
  | cons part others ih =>
    obtain ⟨room, rfl⟩ : ∃ r, room = r + 1 := ⟨room - 1, by simp at few; omega⟩
    have first := (items part List.mem_cons_self).2
    cases others with
    | nil =>
      cases listed with
      | one =>
        refine Leads.bindLast (first _ ⟨_, _, rfl, .inr isClosing⟩ size) fun a same => ?_
        refine leads_refuse ?_ (builds_pure (by simp [same]))
        rintro _ ⟨⟩
        rw [isClosing]
        nofun
    | cons next others =>
      cases listed with
      | @more _ _ us _ _ isComma listed =>
        simp only [List.append_assoc, List.cons_append] at size
        refine Leads.bind (first _ ⟨_, _, rfl, .inl isComma⟩ size) fun a same => ?_
        refine leads_accept isComma ?_
        have later : BuildsListed item f n (next :: others) :=
          fun p member => items p (List.mem_cons_of_mem _ member)
        have shorter : (us ++ closing :: rest).length ≤ n := by
          simp only [List.length_append, List.length_cons] at size ⊢
          omega
        refine Leads.bindLast (ih later listed nofun (Nat.le_of_succ_le_succ few) shorter) ?_
        exact fun as trees => builds_pure (by rw [List.map_cons, same, trees]; rfl)

/-- A list with its closing parenthesis. -/
theorem builds_parenthesized {parts : List (Passage γ)} (items : BuildsListed item f n parts)
    (listed : Listed (parts.map Passage.tokens) ts) (few : parts.length ≤ mostItems)
    {closing : Token} (isClosing : closing.kind = .symbol .rightParen)
    (size : (ts ++ closing :: rest).length ≤ n) (overflow unclosed : ParseCause) :
    Builds (parenthesized item overflow unclosed) (ts ++ [closing]) rest
      fun r => r.1.map f = parts.map Passage.tree ∧ r.2 = closing.toLexeme := by
  apply leads_peek
  dsimp only
  cases parts with
  | nil =>
    cases listed with
    | none =>
      rw [if_pos (by simp [isClosing]), pure_bind]
      exact leads_expect isClosing (builds_pure ⟨rfl, rfl⟩)
  | cons part others =>
    obtain ⟨first, us, begins, notClosing⟩ := (items part List.mem_cons_self).1
    have head : (ts ++ [closing] ++ rest).head?.map (·.kind) = some first.kind := by
      cases others <;> cases listed <;> simp [begins]
    rw [head, if_neg fun same => notClosing (Option.some.inj same)]
    have items := builds_separated items listed nofun isClosing few size overflow
    refine Leads.bind items fun as trees => ?_
    exact leads_expect isClosing (builds_pure ⟨trees, rfl⟩)

/-! Expressions. Each phrase is read in front of tokens that cannot go on with it. -/

/-- No call, property or operator of these levels follows. -/
def Ends (levels : List Level) (rest : List Token) : Prop :=
  ∀ t ∈ rest.head?, t.kind ≠ .symbol .leftParen ∧ t.kind ≠ .symbol .dot ∧
    ∀ level ∈ levels, level t.kind = none

theorem Ends.subset {levels others : List Level} (ends : Ends levels rest)
    (fewer : others ⊆ levels) : Ends others rest := fun t head =>
  ⟨(ends t head).1, (ends t head).2.1, fun level member => (ends t head).2.2 level (fewer member)⟩

end Parse

/-- The levels that bind tighter than a tier. -/
def Grammar.Tier.below : Tier → List Level
  | .logicOr => Level.all.drop 1
  | .logicAnd => Level.all.drop 2
  | .equality => Level.all.drop 3
  | .comparison => Level.all.drop 4
  | .term => Level.all.drop 5
  | .factor => []

theorem Grammar.Operator.level_eq {t : Tier} {k : Kind} {op : InfixOp}
    (operator : Operator t k op) : t.level k = some op := by
  cases operator <;> rfl

/-- An operator does not go on with its left operand. -/
theorem Grammar.Operator.ends {t : Tier} {sign : Token} {op : InfixOp}
    (operator : Operator t sign.kind op) (rest : List Token) :
    Parse.Ends t.below (sign :: rest) := by
  rintro _ ⟨⟩
  generalize sign.kind = k at operator
  cases operator <;> refine ⟨nofun, nofun, fun level member => ?_⟩ <;>
    simp only [Tier.below, Level.all, List.drop_succ_cons, List.drop_zero, List.mem_cons,
      List.not_mem_nil, or_false] at member <;>
    rcases member with rfl | rfl | rfl | rfl | rfl <;> rfl

theorem Grammar.Sign.ofKind?_eq {k : Kind} {op : UnaryOp} (sign : Sign k op) :
    UnaryOp.ofKind? k = some op := by
  cases sign <;> rfl

namespace Parse
variable {ts us rest : List Token} {e : Expr} {t : Tier}

/-- In front of `rest`, `p` reads `ts` as the first operands of a loop that takes more of them. -/
abbrev Arrives (p : Parse Expr) (loop : Nat → Expr → Parse Expr) (ts rest : List Token) (e : Expr) :
    Prop :=
  Leads p ts rest fun r => ∃ bound left, r = loop bound left ∧ rest.length ≤ bound ∧ left.bare = e

/-- The parser of a tier's operands. -/
abbrev operandOf (t : Tier) (bound : Nat) : Parse Expr :=
  t.below.foldr (chain bound) (unary bound (expression bound))

/-- What may follow a whole expression. -/
def Follows (rest : List Token) : Prop :=
  Ends Level.all rest ∧ ∀ t ∈ rest.head?, t.kind ≠ .symbol .equal

theorem follows_nil : Follows [] := ⟨nofun, nofun⟩

theorem follows_cons {t : Token} (ending : t.kind = .symbol .semicolon ∨ t.kind = .symbol .comma ∨
    t.kind = .symbol .rightParen) (rest : List Token) : Follows (t :: rest) := by
  have other : (t.kind ≠ .symbol .leftParen ∧ t.kind ≠ .symbol .dot ∧
      ∀ level ∈ Level.all, level t.kind = none) ∧ t.kind ≠ .symbol .equal := by
    rcases ending with same | same | same <;> rw [same] <;> decide
  constructor <;> rintro _ ⟨⟩
  · exact other.1
  · exact other.2

/-- The parser of a unary expression, with room for so many signs. -/
def signedOperand (room bound : Nat) : Parse Expr := do
  let before ← signs room
  let operand ← calls (Parse.expression bound) bound (← primary (Parse.expression bound))
  signed before operand

/-- What it means for the parser to read a derivation of each phrase. -/
def Completes : Phrase → List Token → Expr → Prop
  | .expression, ts, e | .assignment, ts, e => ∀ bound rest, (ts ++ rest).length ≤ bound →
    Follows rest → Builds (Parse.expression bound) ts rest (·.bare = e)
  | .tier t, ts, e => ∀ bound rest, (ts ++ rest).length ≤ bound + 1 → Ends t.below rest →
    Arrives (chain bound t.level (operandOf t bound)) (chainFrom t.level (operandOf t bound)) ts
      rest e
  | .unary, ts, e => ∀ room bound rest, (ts ++ rest).length ≤ bound + 1 → ts.length ≤ room →
    Ends [] rest → Builds (signedOperand room bound) ts rest (·.bare = e)
  | .call, ts, e => ∀ bound rest, (ts ++ rest).length ≤ bound + 1 →
    Arrives (primary (Parse.expression bound) >>= calls (Parse.expression bound) bound)
      (calls (Parse.expression bound)) ts rest e
  | .primary, ts, e => ∀ bound rest, (ts ++ rest).length ≤ bound + 1 →
    Builds (primary (Parse.expression bound)) ts rest (·.bare = e)

/-! Primary expressions and calls. -/

theorem completes_literal {token : Token} {value : Literal} (constant : Constant token.kind value) :
    Completes .primary [token] (.literal 0 value) := by
  intro bound rest _
  have found : PrimaryStart.ofKind? token.kind = some (.literal value) := by
    generalize token.kind = k at constant
    cases constant <;> rfl
  exact leads_take found (leads_freshId fun _ => builds_pure rfl)

theorem completes_this {keyword : Token} (isThis : keyword.kind = .keyword .kwThis) :
    Completes .primary [keyword] (.this 0 keyword.toLexeme) := by
  intro bound rest _
  have found : PrimaryStart.ofKind? keyword.kind = some .this := by rw [isThis]; rfl
  exact leads_take found (leads_freshId fun _ => builds_pure rfl)

theorem completes_var {name : Token} (isName : name.kind = .identifier) :
    Completes .primary [name] (.var 0 name.toLexeme) := by
  intro bound rest _
  have found : PrimaryStart.ofKind? name.kind = some .name := by rw [isName]; rfl
  exact leads_take found (leads_freshId fun _ => builds_pure rfl)

theorem completes_group {opening closing : Token} {inner : Expr}
    (isOpening : opening.kind = .symbol .leftParen) (completes : Completes .expression ts inner)
    (isClosing : closing.kind = .symbol .rightParen) :
    Completes .primary (opening :: (ts ++ [closing])) (.group 0 inner) := by
  intro bound rest size
  have found : PrimaryStart.ofKind? opening.kind = some .group := by rw [isOpening]; rfl
  have shorter : (ts ++ closing :: rest).length ≤ bound := by
    simp only [List.cons_append, List.append_assoc, List.length_cons] at size
    exact Nat.le_of_succ_le_succ size
  have inside := completes bound (closing :: rest) shorter
    (follows_cons (.inr (.inr isClosing)) rest)
  refine leads_take found (Leads.bind inside fun e same => ?_)
  refine leads_expect isClosing (leads_freshId fun id => builds_pure ?_)
  rw [← same]
  rfl

theorem completes_primary (completes : Completes .primary ts e) (some : 0 < ts.length) :
    Completes .call ts e := by
  intro bound rest size
  refine Leads.bindLast (completes bound rest size) fun subject same => leads_here ?_
  refine ⟨bound, subject, rfl, ?_, same⟩
  rw [List.length_append] at size
  omega

/-- Arguments are read one by one. -/
theorem buildsListed_expression {parts : List (Passage Expr)}
    (derive : ∀ p ∈ parts, Derives .expression p.tokens p.tree)
    (each : ∀ p ∈ parts, Completes .expression p.tokens p.tree) (bound : Nat) :
    BuildsListed (Parse.expression bound) Expr.bare bound parts := by
  intro p member
  constructor
  · obtain ⟨first, us, same, begins⟩ := (derive p member).begins
    refine ⟨first, us, same, ?_⟩
    intro closing
    rw [closing] at begins
    cases begins with
    | sign sign => cases sign
    | constant constant => cases constant
  · rintro _ ⟨ending, others, rfl, isEnding⟩ size
    exact each p member bound _ size (follows_cons (.inr isEnding) others)

theorem completes_call {opening closing : Token} {callee : Expr} {arguments : List (Passage Expr)}
    (completes : Completes .call ts callee) (isOpening : opening.kind = .symbol .leftParen)
    (derive : ∀ a ∈ arguments, Derives .expression a.tokens a.tree)
    (each : ∀ a ∈ arguments, Completes .expression a.tokens a.tree)
    (listed : Listed (arguments.map Passage.tokens) us) (few : arguments.length ≤ mostItems)
    (isClosing : closing.kind = .symbol .rightParen) :
    Completes .call (ts ++ opening :: (us ++ [closing]))
      (.call 0 callee (arguments.map Passage.tree) closing.toLexeme) := by
  intro bound rest size
  simp only [List.append_assoc, List.cons_append, List.nil_append] at size
  have before := completes bound (opening :: (us ++ [closing]) ++ rest) (by simpa using size)
  refine Leads.trans before ?_
  rintro _ ⟨rounds, left, rfl, enough, same⟩
  obtain ⟨rounds, rfl⟩ : ∃ n, rounds = n + 1 := ⟨rounds - 1, by simp at enough; omega⟩
  simp only [List.length_append, List.length_cons, List.length_nil] at size enough
  have shorter : (us ++ closing :: rest).length ≤ bound := by
    simp only [List.length_append, List.length_cons]
    omega
  have inside := builds_parenthesized (buildsListed_expression derive each bound) listed few
    isClosing shorter .tooManyArguments .argumentsClose
  refine leads_accept isOpening (Leads.bindLast inside ?_)
  rintro ⟨values, _⟩ ⟨trees, rfl⟩
  refine leads_freshId fun id => leads_here ⟨rounds, _, rfl, by omega, ?_⟩
  rw [← same, ← trees, ← Expr.relabelEach_eq_map]
  rfl

theorem completes_get {dot name : Token} {object : Expr} (completes : Completes .call ts object)
    (isDot : dot.kind = .symbol .dot) (isName : name.kind = .identifier) :
    Completes .call (ts ++ [dot, name]) (.get 0 object name.toLexeme) := by
  intro bound rest size
  have before := completes bound ([dot, name] ++ rest) (by simpa using size)
  refine Leads.trans before ?_
  rintro _ ⟨rounds, left, rfl, enough, same⟩
  obtain ⟨rounds, rfl⟩ : ∃ n, rounds = n + 1 := ⟨rounds - 1, by simp at enough; omega⟩
  have notCall : ∀ t ∈ ([dot, name] ++ rest).head?, t.kind ≠ .symbol .leftParen := by
    rintro _ ⟨⟩
    rw [isDot]
    nofun
  refine leads_refuse notCall (leads_accept isDot (leads_expect isName ?_))
  refine leads_freshId fun id => leads_here ⟨rounds, _, rfl, by simp at enough; omega, ?_⟩
  rw [← same]
  rfl

/-! Signs. -/

theorem completes_signed {sign : Token} {op : UnaryOp} (isSign : Sign sign.kind op)
    (completes : Completes .unary ts e) :
    Completes .unary (sign :: ts) (.unary 0 op sign.toLexeme e) := by
  intro room bound rest size enough ends
  obtain ⟨room, rfl⟩ : ∃ n, room = n + 1 := ⟨room - 1, by simp at enough; omega⟩
  have after := completes room bound rest (Nat.le_of_succ_le size)
    (Nat.le_of_succ_le_succ enough) ends
  -- the node of the first sign is built last, around what the other signs build
  have split : signedOperand (room + 1) bound = takeIf UnaryOp.ofKind? >>= fun found =>
      found.elim (primary (Parse.expression bound) >>= calls (Parse.expression bound) bound)
        fun first => signedOperand room bound >>= fun inner =>
          freshId >>= fun id => pure (.unary id first.1 first.2 inner) := by
    simp only [signedOperand, signs, bind_assoc]
    congr 1
    funext found
    cases found with
    | none => simp [signed]
    | some first => simp [signed]
  rw [split]
  refine leads_take isSign.ofKind?_eq (Leads.bindLast after ?_)
  intro inner same
  refine leads_freshId fun id => builds_pure ?_
  rw [← same]
  rfl

/-- Nothing goes on with a call here. -/
theorem builds_calls_nil (ends : Ends [] rest) (expression : Parse Expr) (bound : Nat)
    (subject : Expr) : Builds (calls expression bound subject) [] rest (· = subject) := by
  cases bound with
  | zero => exact builds_pure rfl
  | succ bound =>
    refine leads_refuse (fun t head => (ends t head).1) ?_
    exact leads_refuse (fun t head => (ends t head).2.1) (builds_pure rfl)

theorem completes_unsigned (derives : Derives .call ts e) (completes : Completes .call ts e) :
    Completes .unary ts e := by
  intro room bound rest size _ ends
  have none : Builds (signs room) [] (ts ++ rest) (· = []) := by
    obtain ⟨first, us, rfl, unsigned⟩ := derives.unsigned_begins
    cases room with
    | zero => exact builds_pure rfl
    | succ room =>
      refine leads_leave ?_ (builds_pure rfl)
      rintro _ ⟨⟩
      cases found : UnaryOp.ofKind? first.kind with
      | none => rfl
      | some op => exact absurd (sign_of_ofKind? found) (unsigned op)
  refine Leads.bind none ?_
  rintro _ rfl
  rw [← bind_assoc, ← List.append_nil ts]
  refine Leads.bind (P := (·.bare = e)) ?_ fun operand same => builds_pure same
  have all := completes bound rest size
  rw [← List.append_nil ts]
  refine Leads.trans all ?_
  rintro _ ⟨rounds, left, rfl, _, same⟩
  refine (builds_calls_nil ends _ rounds left).imp ?_
  rintro _ ⟨_, rfl, rfl⟩
  exact ⟨_, rfl, same⟩

/-! Infix operators. -/

/-- No operator of the level follows. -/
theorem builds_chainFrom_nil {level : Level} (ends : Ends [level] rest) (operand : Parse Expr)
    (bound : Nat) (left : Expr) :
    Builds (chainFrom level operand bound left) [] rest (· = left) := by
  cases bound with
  | zero => exact builds_pure rfl
  | succ bound =>
    exact leads_leave (fun t head => (ends t head).2.2 level List.mem_cons_self) (builds_pure rfl)

/-- Where no operator of the tier follows, the operands read so far are all. -/
theorem Completes.builds_tier (completes : Completes (.tier t) ts e) {bound : Nat}
    (size : (ts ++ rest).length ≤ bound + 1) (ends : Ends (t.level :: t.below) rest) :
    Builds (chain bound t.level (operandOf t bound)) ts rest (·.bare = e) := by
  have all := completes bound rest size (ends.subset (List.subset_cons_self _ _))
  rw [← List.append_nil ts]
  refine Leads.trans all ?_
  rintro _ ⟨rounds, left, rfl, _, same⟩
  have ended : Ends [t.level] rest := ends.subset (by simp)
  refine (builds_chainFrom_nil ended _ rounds left).imp ?_
  rintro _ ⟨_, rfl, rfl⟩
  exact ⟨_, rfl, same⟩

theorem Completes.builds_operand (completes : Completes t.operand ts e) {bound : Nat}
    (size : (ts ++ rest).length ≤ bound + 1) (ends : Ends t.below rest) :
    Builds (operandOf t bound) ts rest (·.bare = e) := by
  cases t with
  | factor =>
    rw [List.length_append] at size
    exact completes (bound + 1) bound rest (by simpa using size) (by omega) ends
  | logicOr => exact builds_tier (t := .logicAnd) completes size ends
  | logicAnd => exact builds_tier (t := .equality) completes size ends
  | equality => exact builds_tier (t := .comparison) completes size ends
  | comparison => exact builds_tier (t := .term) completes size ends
  | term => exact builds_tier (t := .factor) completes size ends

theorem completes_operand (derives : Derives t.operand ts e)
    (completes : Completes t.operand ts e) : Completes (.tier t) ts e := by
  intro bound rest size ends
  refine Leads.bindLast (completes.builds_operand size ends) fun left same => leads_here ?_
  refine ⟨bound, left, rfl, ?_, same⟩
  have some := derives.length_pos
  rw [List.length_append] at size
  omega

theorem completes_infixed {sign : Token} {op : InfixOp} {left right : Expr}
    (completes : Completes (.tier t) ts left) (operator : Operator t sign.kind op)
    (operand : Completes t.operand us right) :
    Completes (.tier t) (ts ++ sign :: us) (op.node 0 sign.toLexeme left right) := by
  intro bound rest size ends
  have before := completes bound (sign :: us ++ rest) (by simpa using size) (operator.ends _)
  refine Leads.trans before ?_
  rintro _ ⟨rounds, leftmost, rfl, enough, same⟩
  simp only [List.length_append, List.length_cons] at size enough
  obtain ⟨rounds, rfl⟩ : ∃ n, rounds = n + 1 := ⟨rounds - 1, by omega⟩
  have after : Builds (operandOf t bound) us rest (·.bare = right) :=
    operand.builds_operand (by rw [List.length_append]; omega) ends
  refine leads_take operator.level_eq (Leads.bindLast after fun rightmost same' => ?_)
  refine leads_freshId fun id => leads_here ⟨rounds, _, rfl, by omega, ?_⟩
  rw [← same, ← same']
  cases op <;> rfl

/-! Assignments. -/

theorem completes_operation_of_call (derives : Derives .call ts e)
    (completes : Completes .call ts e) : Completes (.tier .logicOr) ts e := by
  have unary := Derives.unsigned derives
  have factor := Derives.operand (t := .factor) unary
  have term := Derives.operand (t := .term) factor
  have comparison := Derives.operand (t := .comparison) term
  have equality := Derives.operand (t := .equality) comparison
  have logicAnd := Derives.operand (t := .logicAnd) equality
  refine completes_operand logicAnd (completes_operand equality (completes_operand comparison ?_))
  refine completes_operand term (completes_operand factor (completes_operand unary ?_))
  exact completes_unsigned derives completes

/-- What stands before the sign of an assignment is read as an operation. -/
theorem builds_target {sign : Token} (derives : Derives .call ts e)
    (completes : Completes .call ts e) (isSign : sign.kind = .symbol .equal) {bound : Nat}
    (size : (ts ++ sign :: rest).length ≤ bound + 1) :
    Builds (operation bound (Parse.expression bound)) ts (sign :: rest) (·.bare = e) := by
  have whole := completes_operation_of_call derives completes
  refine whole.builds_tier size ?_
  rintro _ ⟨⟩
  rw [isSign]
  decide

theorem completes_assign {name sign : Token} {value : Expr} (isName : name.kind = .identifier)
    (isSign : sign.kind = .symbol .equal) (completes : Completes .assignment ts value) :
    Completes .assignment (name :: sign :: ts) (.assign 0 name.toLexeme value) := by
  intro bound rest size follows
  simp only [List.cons_append, List.length_cons] at size
  obtain ⟨bound, rfl⟩ : ∃ n, bound = n + 1 := ⟨bound - 1, by omega⟩
  have target := builds_target (.primary (.var isName))
    (completes_primary (completes_var isName) (Nat.succ_pos 0)) isSign
    (show ([name] ++ sign :: (ts ++ rest)).length ≤ bound + 1 by simpa using size)
  refine Leads.bind target fun place same => leads_take? isSign ?_
  refine Leads.bindLast (completes bound rest (by omega) follows) fun e same' => ?_
  cases place with
  | var id written =>
    have same : Expr.var 0 written = .var 0 name.toLexeme := same
    injection same with _ same
    refine leads_freshId fun id => builds_pure ?_
    rw [← same, ← same']
    rfl
  | literal | group | this | assign | unary | binary | logical | call | get | set => cases same

theorem completes_set {dot name sign : Token} {object value : Expr}
    (derives : Derives .call ts object) (before : Completes .call ts object)
    (isDot : dot.kind = .symbol .dot) (isName : name.kind = .identifier)
    (isSign : sign.kind = .symbol .equal) (completes : Completes .assignment us value) :
    Completes .assignment (ts ++ dot :: name :: sign :: us)
      (.set 0 object name.toLexeme value) := by
  intro bound rest size follows
  have whole : ts ++ dot :: name :: sign :: us = (ts ++ [dot, name]) ++ (sign :: us) := by simp
  rw [whole] at size ⊢
  simp only [List.length_append, List.length_cons, List.length_nil] at size
  obtain ⟨bound, rfl⟩ : ∃ n, bound = n + 1 := ⟨bound - 1, by omega⟩
  have fits : (ts ++ [dot, name] ++ sign :: (us ++ rest)).length ≤ bound + 1 := by
    simp only [List.length_append, List.length_cons, List.length_nil]
    omega
  have target := builds_target (.get derives isDot isName) (completes_get before isDot isName)
    isSign fits
  have shorter : (us ++ rest).length ≤ bound := by
    rw [List.length_append]
    omega
  refine Leads.bind target fun place same => leads_take? isSign ?_
  refine Leads.bindLast (completes bound rest shorter follows) fun e same' => ?_
  cases place with
  | get id subject written =>
    have same : Expr.get 0 subject.bare written = .get 0 object name.toLexeme := same
    injection same with _ inner same
    refine leads_freshId fun id => builds_pure ?_
    rw [← inner, ← same, ← same']
    rfl
  | literal | group | this | assign | unary | binary | logical | call | var | set => cases same

theorem completes_operation (derives : Derives (.tier .logicOr) ts e)
    (completes : Completes (.tier .logicOr) ts e) : Completes .assignment ts e := by
  intro bound rest size follows
  have some := derives.length_pos
  obtain ⟨bound, rfl⟩ : ∃ n, bound = n + 1 :=
    ⟨bound - 1, by rw [List.length_append] at size; omega⟩
  refine Leads.bindLast (completes.builds_tier size follows.1) fun e same => ?_
  exact leads_leave? follows.2 (builds_pure same)

end Parse

/-- Every derivation of an expression is read as such. -/
theorem Grammar.Derives.completes {n : Phrase} {ts : List Token} {e : Expr}
    (derives : Derives n ts e) : Parse.Completes n ts e := by
  induction derives with
  | expression _ ih => exact ih
  | assign isName isSign _ ih => exact Parse.completes_assign isName isSign ih
  | set object isDot isName isSign _ ih ih' =>
    exact Parse.completes_set object ih isDot isName isSign ih'
  | operation operation ih => exact Parse.completes_operation operation ih
  | operand operand ih => exact Parse.completes_operand operand ih
  | infixed _ operator _ ih ih' => exact Parse.completes_infixed ih operator ih'
  | signed sign _ ih => exact Parse.completes_signed sign ih
  | unsigned call ih => exact Parse.completes_unsigned call ih
  | primary primary ih => exact Parse.completes_primary ih primary.length_pos
  | call _ isOpening each listed few isClosing ih ih' =>
    exact Parse.completes_call ih isOpening each ih' listed few isClosing
  | get _ isDot isName ih => exact Parse.completes_get ih isDot isName
  | literal constant => exact Parse.completes_literal constant
  | this isThis => exact Parse.completes_this isThis
  | var isName => exact Parse.completes_var isName
  | group isOpening _ isClosing ih => exact Parse.completes_group isOpening ih isClosing

end ScopeScript
