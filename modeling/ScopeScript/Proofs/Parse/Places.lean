import ScopeScript.Proofs.Parse.Numbering
import ScopeScript.Proofs.Token.Join

/-! Where a parser complains. It never goes back, and a complaint is about a token between where it
began to read and where it stopped, also if that token has been read already. So the errors of a
program come in the order of the tokens. -/
namespace ScopeScript

/-- The places of all tokens to come and of the end of the input. -/
def Cursor.places (c : Cursor) : List Place :=
  c.rest.map (fun t => .ofLexeme t.toLexeme) ++ [.ofEnd c.endLine]

theorem Cursor.places_eq (c : Cursor) : ∃ later, c.places = c.place :: later := by
  unfold places place
  cases c.rest with
  | nil => exact ⟨[], rfl⟩
  | cons t rest => exact ⟨_, rfl⟩

theorem Cursor.places_suffix (c : Cursor) {fewer rest : List Token} (suffix : fewer <:+ rest) :
    Cursor.places { c with rest := fewer } <:+ Cursor.places { c with rest } := by
  obtain ⟨dropped, rfl⟩ := suffix
  simp [places]

namespace Parse
variable {α β : Type} {p : Parse α} {q : α → Parse β}

/-- A place that lies at one of the tokens from `c` on and not behind the next one of `c'`. -/
def Between (c : Cursor) (place : Place) (c' : Cursor) : Prop :=
  ∃ later, place :: later <:+ c.places ∧ c'.places <:+ place :: later

/-- A parser that goes on from token to token and complains about one it has come by. -/
structure Orderly (p : Parse α) : Prop where
  onward : ∀ {c a c'}, p c = .ok a c' → c'.places <:+ c.places
  between : ∀ {c e c'}, p c = .error e c' → Between c e.place c'

theorem Orderly.bind (first : Orderly p) (next : ∀ a, Orderly (q a)) : Orderly (p >>= q) where
  onward ok := by
    obtain ⟨a, d, left, right⟩ := bind_eq_ok.mp ok
    exact ((next a).onward right).trans (first.onward left)
  between {c e c'} failed := by
    simp only [Bind.bind, EStateM.bind] at failed
    split at failed
    · next a d left =>
      obtain ⟨later, inside, stopped⟩ := (next a).between failed
      exact ⟨later, inside.trans (first.onward left), stopped⟩
    · next left =>
      cases failed
      exact first.between left

theorem orderly_pure (a : α) : Orderly (pure a : Parse α) where
  onward := by
    rintro c _ _ ⟨⟩
    exact List.suffix_refl _
  between := nofun

theorem orderly_fail (cause : ParseCause) : Orderly (fail cause : Parse α) where
  onward := nofun
  between := by
    rintro c _ _ ⟨⟩
    obtain ⟨later, places⟩ := c.places_eq
    exact ⟨later, by simp [places], by simp [places]⟩

theorem orderly_peek : Orderly peek where
  onward := by
    rintro c _ _ ⟨⟩
    exact List.suffix_refl _
  between := nofun

theorem orderly_freshId : Orderly freshId where
  onward := by
    rintro c _ _ ⟨⟩
    exact List.suffix_refl _
  between := nofun

/-- A token that is read was the next one. -/
theorem places_of_takeIf {select : Kind → Option α} {c c' : Cursor} {found : Option (α × Lexeme)}
    (taken : takeIf select c = .ok found c') :
    match found with
    | none => c' = c
    | some (_, l) => c.places = .ofLexeme l :: c'.places := by
  simp only [takeIf] at taken
  split at taken
  · cases taken
    rfl
  · next t rest here =>
    split at taken
    · cases taken
      rfl
    · cases taken
      simp [Cursor.places, here]

theorem orderly_takeIf (select : Kind → Option α) : Orderly (takeIf select) where
  onward {c found c'} taken := by
    have places := places_of_takeIf taken
    match found with
    | none => exact places ▸ List.suffix_refl _
    | some (_, l) => exact places ▸ List.suffix_cons _ _
  between {c e c'} failed := by
    simp only [takeIf] at failed
    split at failed
    · cases failed
    · split at failed <;> cases failed

theorem orderly_take? (kind : Kind) : Orderly (take? kind) :=
  (orderly_takeIf _).bind fun _ => orderly_pure _

theorem orderly_accept (kind : Kind) : Orderly (accept kind) :=
  (orderly_take? kind).bind fun _ => orderly_pure _

theorem orderly_expect (kind : Kind) (cause : ParseCause) : Orderly (expect kind cause) := by
  apply (orderly_take? kind).bind
  intro found
  cases found with
  | none => exact orderly_fail cause
  | some l => exact orderly_pure l

theorem Orderly.ite {condition : Prop} [Decidable condition] {yes no : Parse α}
    (first : Orderly yes) (second : Orderly no) : Orderly (if condition then yes else no) := by
  split
  · exact first
  · exact second

theorem orderly_separated {item : Parse α} (items : Orderly item) (overflow : ParseCause)
    (room : Nat) : Orderly (separated item overflow room) := by
  induction room with
  | zero => exact orderly_fail overflow
  | succ room ih =>
    apply items.bind
    intro first
    apply (orderly_accept _).bind
    intro more
    exact (ih.bind fun _ => orderly_pure _).ite (orderly_pure _)

theorem orderly_parenthesized {item : Parse α} (items : Orderly item)
    (overflow unclosed : ParseCause) : Orderly (parenthesized item overflow unclosed) := by
  apply orderly_peek.bind
  intro next
  dsimp only
  split
  · exact (orderly_pure _).bind fun _ => (orderly_expect _ _).bind fun _ => orderly_pure _
  · apply (orderly_separated items overflow listLimit).bind
    intro _
    exact (orderly_expect _ _).bind fun _ => orderly_pure _

/-! Expressions. -/

section Expressions
variable {expression : Parse Expr}

theorem orderly_primary (inner : Orderly expression) : Orderly (primary expression) := by
  apply (orderly_takeIf _).bind
  intro start
  match start with
  | none => exact orderly_fail _
  | some (.literal _, _) | some (.this, _) | some (.name, _) =>
    exact orderly_freshId.bind fun _ => orderly_pure _
  | some (.group, _) =>
    apply inner.bind
    intro e
    apply (orderly_expect _ _).bind
    intro _
    exact orderly_freshId.bind fun _ => orderly_pure _

theorem orderly_calls (inner : Orderly expression) (bound : Nat) (subject : Expr) :
    Orderly (calls expression bound subject) := by
  induction bound generalizing subject with
  | zero => exact orderly_pure subject
  | succ bound ih =>
    apply (orderly_accept _).bind
    intro called
    refine Orderly.ite ?_ ?_
    · apply (orderly_parenthesized inner _ _).bind
      intro r
      exact orderly_freshId.bind fun _ => ih _
    · apply (orderly_accept _).bind
      intro read
      refine Orderly.ite ?_ (orderly_pure subject)
      apply (orderly_expect _ _).bind
      intro property
      exact orderly_freshId.bind fun _ => ih _

theorem orderly_signs (bound : Nat) : Orderly (signs bound) := by
  induction bound with
  | zero => exact orderly_pure []
  | succ bound ih =>
    apply (orderly_takeIf _).bind
    intro sign
    match sign with
    | none => exact orderly_pure []
    | some _ => exact ih.bind fun _ => orderly_pure _

theorem orderly_signed (before : List (UnaryOp × Lexeme)) (operand : Expr) :
    Orderly (signed before operand) := by
  induction before with
  | nil => exact orderly_pure operand
  | cons sign rest ih =>
    apply ih.bind
    intro inner
    exact orderly_freshId.bind fun _ => orderly_pure _

theorem orderly_unary (inner : Orderly expression) (bound : Nat) :
    Orderly (unary bound expression) := by
  apply (orderly_signs (bound + 1)).bind
  intro before
  apply (orderly_primary inner).bind
  intro subject
  exact (orderly_calls inner bound subject).bind fun _ => orderly_signed before _

theorem orderly_chainFrom {operand : Parse Expr} (operands : Orderly operand) (level : Level)
    (bound : Nat) (left : Expr) : Orderly (chainFrom level operand bound left) := by
  induction bound generalizing left with
  | zero => exact orderly_pure left
  | succ bound ih =>
    apply (orderly_takeIf _).bind
    intro sign
    match sign with
    | none => exact orderly_pure left
    | some _ =>
      apply operands.bind
      intro right
      exact orderly_freshId.bind fun _ => ih _

theorem orderly_operation (inner : Orderly expression) (bound : Nat) :
    Orderly (operation bound expression) := by
  have one (level : Level) {operand : Parse Expr} (operands : Orderly operand) :
      Orderly (chain bound level operand) :=
    operands.bind fun left => orderly_chainFrom operands level bound left
  exact one _ (one _ (one _ (one _ (one _ (one _ (orderly_unary inner bound))))))

/-- A parser that may also complain about the token in front of it. -/
structure OrderlyBehind (sign : Lexeme) (p : Parse α) : Prop where
  onward : ∀ {c a c'}, p c = .ok a c' → c'.places <:+ c.places
  between : ∀ {c e c'}, p c = .error e c' →
    Between c e.place c' ∨ e.place = .ofLexeme sign ∧ c'.places <:+ c.places

theorem Orderly.behind (orderly : Orderly p) (sign : Lexeme) : OrderlyBehind sign p :=
  ⟨orderly.onward, fun failed => .inl (orderly.between failed)⟩

theorem orderly_failAt (sign : Lexeme) (cause : ParseCause) :
    OrderlyBehind sign (failAt sign cause : Parse α) where
  onward := nofun
  between := by
    rintro c _ _ ⟨⟩
    exact .inr ⟨rfl, List.suffix_refl _⟩

theorem Orderly.bindBehind {sign : Lexeme} (first : Orderly p)
    (next : ∀ a, OrderlyBehind sign (q a)) : OrderlyBehind sign (p >>= q) where
  onward ok := by
    obtain ⟨a, d, left, right⟩ := bind_eq_ok.mp ok
    exact ((next a).onward right).trans (first.onward left)
  between {c e c'} failed := by
    simp only [Bind.bind, EStateM.bind] at failed
    split at failed
    · next a d left =>
      rcases (next a).between failed with ⟨later, inside, stopped⟩ | ⟨same, stopped⟩
      · exact .inl ⟨later, inside.trans (first.onward left), stopped⟩
      · exact .inr ⟨same, stopped.trans (first.onward left)⟩
    · next left =>
      cases failed
      exact .inl (first.between left)

/-- Reading the token brings the complaints about it in line. -/
theorem orderly_take?_bind {kind : Kind} {q : Option Lexeme → Parse β} (no : Orderly (q none))
    (yes : ∀ sign, OrderlyBehind sign (q (some sign))) : Orderly (take? kind >>= q) := by
  simp only [take?, bind_assoc, pure_bind]
  refine ⟨fun {c b c'} ok => ?_, fun {c e c'} failed => ?_⟩
  · obtain ⟨found, d, left, right⟩ := bind_eq_ok.mp ok
    have onward := (orderly_takeIf _).onward left
    cases found with
    | none => exact (no.onward right).trans onward
    | some sign => exact ((yes sign.2).onward right).trans onward
  · simp only [Bind.bind, EStateM.bind] at failed
    split at failed
    · next found d left =>
      have places := places_of_takeIf left
      match found with
      | none =>
        rw [show d = c from places] at failed
        exact no.between failed
      | some (_, sign) =>
        rcases (yes sign).between failed with ⟨later, inside, stopped⟩ | ⟨same, stopped⟩
        · exact ⟨later, places ▸ inside.trans (List.suffix_cons _ _), stopped⟩
        · rw [same]
          exact ⟨d.places, by simp [places], stopped.trans (List.suffix_cons _ _)⟩
    · next left =>
      cases failed
      exact (orderly_takeIf _).between left

/-- A target that can not be assigned to is told by the sign behind it. -/
theorem orderly_assignment (inner : Orderly expression) (bound : Nat) :
    Orderly (assignment bound expression) := by
  apply (orderly_operation inner bound).bind
  intro target
  refine orderly_take?_bind (orderly_pure target) fun sign => inner.bindBehind fun value => ?_
  cases target with
  | var _ _ | get _ _ _ => exact (orderly_freshId.bind fun _ => orderly_pure _).behind sign
  | _ => exact orderly_failAt sign _

theorem orderly_expression (bound : Nat) : Orderly (Parse.expression bound) := by
  induction bound with
  | zero => exact orderly_fail _
  | succ bound ih => exact orderly_assignment ih bound

end Expressions

/-! Statements. -/

section Statements
variable {statement declaration : Parse Stmt}

/-- A token that has to follow. -/
theorem Orderly.afterExpect {p : Parse α} (orderly : Orderly p) (kind : Kind) (cause : ParseCause) :
    Orderly (expect kind cause >>= fun _ => p) :=
  (orderly_expect kind cause).bind fun _ => orderly

theorem orderly_optionalBefore (ending : Kind) (bound : Nat) :
    Orderly (optionalBefore ending bound) := by
  apply orderly_peek.bind
  intro next
  exact (orderly_pure none).ite ((orderly_expression bound).bind fun _ => orderly_pure _)

theorem orderly_expressionStatement (bound : Nat) : Orderly (expressionStatement bound) :=
  (orderly_expression bound).bind fun _ => (orderly_pure _).afterExpect _ _

theorem orderly_varDeclaration (bound : Nat) : Orderly (varDeclaration bound) := by
  apply (orderly_expect _ _).bind
  intro name
  apply (orderly_accept _).bind
  intro given
  dsimp only
  split
  · apply (orderly_expression bound).bind
    intro initial
    exact (orderly_pure _).bind fun _ => (orderly_pure _).afterExpect _ _
  · exact (orderly_pure _).bind fun _ => (orderly_pure _).afterExpect _ _

theorem orderly_printStatement (bound : Nat) : Orderly (printStatement bound) :=
  (orderly_expression bound).bind fun _ => (orderly_pure _).afterExpect _ _

theorem orderly_returnStatement (bound : Nat) (keyword : Lexeme) :
    Orderly (returnStatement bound keyword) :=
  (orderly_optionalBefore _ bound).bind fun _ => (orderly_pure _).afterExpect _ _

theorem orderly_ifStatement (inner : Orderly statement) (bound : Nat) :
    Orderly (ifStatement bound statement) := by
  refine Orderly.afterExpect ((orderly_expression bound).bind fun condition => ?_) _ _
  refine Orderly.afterExpect (inner.bind fun yes => ?_) _ _
  apply (orderly_accept _).bind
  intro other
  exact (inner.bind fun _ => orderly_pure _).ite (orderly_pure _)

theorem orderly_whileStatement (inner : Orderly statement) (bound : Nat) :
    Orderly (whileStatement bound statement) := by
  refine Orderly.afterExpect ((orderly_expression bound).bind fun condition => ?_) _ _
  exact (inner.bind fun _ => orderly_pure _).afterExpect _ _

theorem orderly_forFirst (bound : Nat) : Orderly (forFirst bound) := by
  apply (orderly_accept _).bind
  intro empty
  refine (orderly_pure none).ite ((orderly_accept _).bind fun isVar => ?_)
  exact ((orderly_varDeclaration bound).bind fun _ => orderly_pure _).ite
    ((orderly_expressionStatement bound).bind fun _ => orderly_pure _)

theorem orderly_forStatement (inner : Orderly statement) (bound : Nat) :
    Orderly (forStatement bound statement) := by
  refine Orderly.afterExpect ((orderly_forFirst bound).bind fun first => ?_) _ _
  apply (orderly_optionalBefore _ bound).bind
  intro condition
  refine Orderly.afterExpect ((orderly_optionalBefore _ bound).bind fun step => ?_) _ _
  refine Orderly.afterExpect (inner.bind fun body => ?_) _ _
  cases condition with
  | some e => exact (orderly_pure _).bind fun _ => orderly_pure _
  | none =>
    exact orderly_freshId.bind fun _ => (orderly_pure _).bind fun _ => orderly_pure _

theorem orderly_untilBrace {item : Parse α} (items : Orderly item) (bound : Nat) :
    Orderly (untilBrace item bound) := by
  induction bound with
  | zero => exact orderly_pure []
  | succ bound ih =>
    apply orderly_peek.bind
    intro next
    split
    · exact orderly_pure []
    · exact orderly_pure []
    · exact items.bind fun _ => ih.bind fun _ => orderly_pure _

theorem orderly_block (inner : Orderly declaration) (bound : Nat) :
    Orderly (block bound declaration) :=
  (orderly_untilBrace inner bound).bind fun _ => (orderly_pure _).afterExpect _ _

theorem orderly_function (inner : Orderly declaration) (bound : Nat) (role : FunctionRole) :
    Orderly (function bound declaration role) := by
  apply (orderly_expect _ _).bind
  intro name
  refine Orderly.afterExpect ?_ _ _
  apply (orderly_parenthesized (orderly_expect _ _) _ _).bind
  intro params
  exact ((orderly_block inner bound).bind fun _ => orderly_pure _).afterExpect _ _

theorem orderly_superclass : Orderly superclass := by
  apply (orderly_accept _).bind
  intro given
  refine Orderly.ite ((orderly_expect _ _).bind fun name => ?_) (orderly_pure none)
  exact orderly_freshId.bind fun _ => orderly_pure _

theorem orderly_classDeclaration (inner : Orderly declaration) (bound : Nat) :
    Orderly (classDeclaration bound declaration) := by
  apply (orderly_expect _ _).bind
  intro name
  apply orderly_superclass.bind
  intro parent
  refine Orderly.afterExpect ?_ _ _
  apply (orderly_untilBrace (orderly_function inner bound .method) bound).bind
  intro methods
  exact (orderly_pure _).afterExpect _ _

theorem orderly_statementWith (statements : Orderly statement) (declarations : Orderly declaration)
    (bound : Nat) : Orderly (statementWith bound statement declaration) := by
  apply (orderly_takeIf _).bind
  intro start
  match start with
  | some (.forLoop, _) => exact orderly_forStatement statements bound
  | some (.ifElse, _) => exact orderly_ifStatement statements bound
  | some (.whileLoop, _) => exact orderly_whileStatement statements bound
  | some (.returns, keyword) => exact orderly_returnStatement bound keyword
  | some (.block, _) => exact (orderly_block declarations bound).bind fun _ => orderly_pure _
  | some (.print, _) => exact orderly_printStatement bound
  | none => exact orderly_expressionStatement (bound + 1)

theorem orderly_declarationWith (statements : Orderly statement)
    (declarations : Orderly declaration) (bound : Nat) :
    Orderly (declarationWith bound statement declaration) := by
  apply (orderly_takeIf _).bind
  intro start
  match start with
  | some (.classDecl, _) => exact orderly_classDeclaration declarations bound
  | some (.function, _) =>
    exact (orderly_function declarations bound .function).bind fun _ => orderly_pure _
  | some (.var, _) => exact orderly_varDeclaration bound
  | none => exact orderly_statementWith statements declarations bound

theorem orderly_statement_declaration (bound : Nat) :
    Orderly (Parse.statement bound) ∧ Orderly (Parse.declaration bound) := by
  induction bound with
  | zero => exact ⟨orderly_fail _, orderly_fail _⟩
  | succ bound ih =>
    exact ⟨orderly_statementWith ih.1 ih.2 bound, orderly_declarationWith ih.1 ih.2 bound⟩

end Statements

end Parse

/-! Programs. -/

theorem Recovery.resume_suffix (t : Token) (rest : List Token) : resume (t :: rest) <:+ rest := by
  induction rest generalizing t with
  | nil => simp [resume]
  | cons next rest ih =>
    rw [resume]
    split
    · exact List.suffix_refl _
    · exact (ih next).trans (List.suffix_cons _ _)

theorem suffix_of_cons_suffix_cons {α : Type} {a b : α} {first second : List α}
    (suffix : a :: first <:+ b :: second) : first <:+ second := by
  rcases List.suffix_cons_iff.mp suffix with same | inside
  · exact (List.cons.inj same).2 ▸ List.suffix_refl _
  · exact (List.suffix_cons _ _).trans inside

/-- The errors of a program are about different tokens in their order. -/
theorem parseFrom_places (bound : Nat) (c : Cursor) :
    ((parseFrom bound c).errors.map (·.place)).Sublist c.places := by
  induction bound generalizing c with
  | zero => exact List.nil_sublist _
  | succ bound ih =>
    unfold parseFrom
    split
    · exact List.nil_sublist _
    · split
      · next s c' ok =>
        have onward := (Parse.orderly_statement_declaration (bound + 1)).2.onward ok
        exact (ih c').trans onward.sublist
      · next e c' failed =>
        obtain ⟨later, inside, stopped⟩ :=
          (Parse.orderly_statement_declaration (bound + 1)).2.between failed
        have more : ((parseFrom bound { c' with rest := Recovery.resume c'.rest }).errors.map
            (·.place)).Sublist later := by
          cases ahead : c'.rest with
          | nil =>
            cases bound <;> exact List.nil_sublist _
          | cons t rest =>
            have here : c'.places = .ofLexeme t.toLexeme :: Cursor.places { c' with rest } := by
              rw [Cursor.places, ahead]
              rfl
            have dropped := c'.places_suffix (Recovery.resume_suffix t rest)
            have further := dropped.trans (suffix_of_cons_suffix_cons (here ▸ stopped))
            exact (ih _).trans further.sublist
        exact (more.cons_cons _).trans inside.sublist

/-! The lines of a source. -/

def Item.line : Item → Nat
  | token t => t.line
  | error e => e.line

theorem Piece.line_of_item? {piece : Piece} {line : Nat} {item : Item}
    (found : piece.item? line = some item) : item.line = line := by
  cases piece <;> cases found <;> rfl

/-- No item of a scan stands on an earlier line than one before it. -/
theorem itemsFrom_lines (line : Nat) (ps : List Piece) :
    ((itemsFrom line ps).map Item.line).Pairwise (· ≤ ·) ∧
      ∀ item ∈ itemsFrom line ps, line ≤ item.line := by
  induction ps generalizing line with
  | nil => simp [itemsFrom, Item.line]
  | cons piece rest ih =>
    obtain ⟨sorted, above⟩ := ih (line + piece.newlines)
    simp only [itemsFrom]
    cases found : piece.item? (line + piece.newlines) with
    | none =>
      refine ⟨by simpa using sorted, fun item member => ?_⟩
      have := above item (by simpa using member)
      omega
    | some first =>
      have here := Piece.line_of_item? found
      refine ⟨?_, fun item member => ?_⟩
      · refine List.pairwise_cons.mpr ⟨fun l member => ?_, sorted⟩
        obtain ⟨item, held, rfl⟩ := List.mem_map.mp member
        rw [here]
        exact above item held
      · rcases List.mem_cons.mp member with rfl | member
        · omega
        · have := above item member
          omega

/-- Parts of a scan keep the order of the lines. -/
theorem filterMap_lines {α : Type} {f : Item → Option α} (line : α → Nat)
    (same : ∀ item a, f item = some a → item.line = line a) {items : List Item}
    (sorted : (items.map Item.line).Pairwise (· ≤ ·)) :
    ((items.filterMap f).map line).Pairwise (· ≤ ·) := by
  rw [List.pairwise_map] at sorted ⊢
  refine sorted.filterMap f fun first second ordered a left b right => ?_
  rwa [← same first a left, ← same second b right]

theorem tokens_lines (source : String) :
    ((tokens source).map (·.line)).Pairwise (· ≤ ·) := by
  refine filterMap_lines (fun t : Token => t.line) (fun item t found => ?_)
    (itemsFrom_lines 1 _).1
  cases item <;> cases found
  rfl

/-- Lexical errors come in the order of their lines. -/
theorem lexicalErrors_lines (source : String) :
    ((lexicalErrors source).map (·.line)).Pairwise (· ≤ ·) := by
  refine filterMap_lines LexicalError.line (fun item e found => ?_)
    (itemsFrom_lines 1 _).1
  cases item <;> cases found
  rfl

/-- Parse errors come in the order of their lines. -/
theorem parseTokens_lines (source : String) (nextId : ExprId) :
    ((parseTokens (tokens source) nextId).errors.map (·.place.line)).Pairwise (· ≤ ·) := by
  have sorted : ((Cursor.ofTokens (tokens source) nextId).places.map (·.line)).Pairwise
      (· ≤ ·) := by
    have lines := tokens_lines source
    rw [tokens_eq] at lines
    rw [ofTokens_tokens]
    simpa [Cursor.places, Place.ofLexeme, Place.ofEnd, Function.comp_def] using lines
  have places := parseFrom_places (Cursor.ofTokens (tokens source) nextId).rest.length
    (Cursor.ofTokens (tokens source) nextId)
  have inside := sorted.sublist (places.map (·.line))
  rwa [List.map_map] at inside

end ScopeScript
