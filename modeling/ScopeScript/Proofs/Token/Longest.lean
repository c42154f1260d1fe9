import ScopeScript.Proofs.Token.Join

/-! What a piece of a source is, told without the scanner. Tokens are given by how they are spelled,
and of all tokens that a text begins with the scanner takes the longest. -/
namespace ScopeScript

/-- How a symbol is written. -/
def Symbol.spelling : Symbol → List Char
  | leftParen => ['(']
  | rightParen => [')']
  | leftBrace => ['\x7b']
  | rightBrace => ['\x7d']
  | comma => [',']
  | dot => ['.']
  | minus => ['-']
  | plus => ['+']
  | semicolon => [';']
  | slash => ['/']
  | star => ['*']
  | bang => ['!']
  | bangEqual => ['!', '=']
  | equal => ['=']
  | equalEqual => ['=', '=']
  | greater => ['>']
  | greaterEqual => ['>', '=']
  | less => ['<']
  | lessEqual => ['<', '=']

/-- The spellings of tokens. A word is a keyword if and only if the whole of it is one. -/
inductive Spells : List Char → Kind → Prop where
  | symbol (s : Symbol) : Spells s.spelling (.symbol s)
  | string {contents : List Char} : '"' ∉ contents →
      Spells ('"' :: (contents ++ ['"'])) (.string (String.ofList contents))
  | whole {digits : List Char} : digits ≠ [] → (∀ d ∈ digits, d.isDigit = true) →
      Spells digits (.number (Number.read digits []))
  | fraction {whole fraction : List Char} : whole ≠ [] → (∀ d ∈ whole, d.isDigit = true) →
      fraction ≠ [] → (∀ d ∈ fraction, d.isDigit = true) →
      Spells (whole ++ '.' :: fraction) (.number (Number.read whole fraction))
  | keyword (k : Keyword) : Spells k.word.toList (.keyword k)
  | identifier {first : Char} {others : List Char} : first.isAlpha = true ∨ first = '_' →
      (∀ c ∈ others, c.isAlphanum = true ∨ c = '_') →
      (∀ k : Keyword, k.word.toList ≠ first :: others) → Spells (first :: others) .identifier

namespace Piece

/-- What a piece at the front of a text may be. -/
def Fits : Piece → List Char → Prop
  | blank c, text => text.head? = some c ∧ (c = ' ' ∨ c = '\r' ∨ c = '\t' ∨ c = '\n')
  | comment read, text => ∃ body after, read = '/' :: '/' :: body ∧ text = read ++ after ∧
      '\n' ∉ body ∧ (after = [] ∨ after.head? = some '\n')
  | token kind read, text => Spells read kind ∧ read <+: text ∧ ¬ ['/', '/'] <+: text ∧
      ∀ other kind', Spells other kind' → other <+: text → other.length ≤ read.length
  | unexpected c, text => text.head? = some c ∧ c ∉ [' ', '\r', '\t', '\n', '"'] ∧
      ∀ other kind, Spells other kind → ¬ other <+: text
  | unterminated read, text => read = text ∧ ∃ contents, text = '"' :: contents ∧ '"' ∉ contents

end Piece

/-! The first character of a token tells its kind. -/

/-- The characters that tokens of a kind begin with. -/
def Kind.Starts : Kind → Char → Prop
  | .symbol _, c => (Symbol.ofChar? c).isSome = true
  | .string _, c => c = '"'
  | .number _, c => c.isDigit = true
  | .keyword _, c | .identifier, c => Piece.isWordStart c = true
  | .endOfInput, _ => False

theorem Keyword.word_chars (k : Keyword) :
    ∃ c more, k.word.toList = c :: more ∧ Piece.isWordStart c = true ∧
      ∀ d ∈ more, Piece.isWordRest d = true := by
  cases k <;> exact ⟨_, _, rfl, by decide, List.all_eq_true.mp (by decide)⟩

theorem Spells.starts {text : List Char} {kind : Kind} (spells : Spells text kind) :
    ∃ c more, text = c :: more ∧ kind.Starts c := by
  cases spells with
  | symbol s => cases s <;> exact ⟨_, _, rfl, rfl⟩
  | string => exact ⟨_, _, rfl, rfl⟩
  | whole some digits =>
    obtain ⟨c, more, rfl⟩ := List.exists_cons_of_ne_nil some
    exact ⟨c, more, rfl, digits c List.mem_cons_self⟩
  | fraction some digits =>
    obtain ⟨c, more, rfl⟩ := List.exists_cons_of_ne_nil some
    exact ⟨c, _, rfl, digits c List.mem_cons_self⟩
  | keyword k =>
    obtain ⟨c, more, same, start, _⟩ := k.word_chars
    exact ⟨c, more, same, start⟩
  | identifier start => exact ⟨_, _, rfl, by simpa [Kind.Starts, Piece.isWordStart] using start⟩

theorem Spells.starts_of_prefix {text rest : List Char} {kind : Kind} {c : Char}
    (spells : Spells text kind) (leads : text <+: c :: rest) : kind.Starts c := by
  obtain ⟨d, more, rfl, starts⟩ := spells.starts
  obtain ⟨rfl, _⟩ := List.cons_prefix_cons.mp leads
  exact starts

theorem isDigit_iff {c : Char} : c.isDigit = true ↔ 48 ≤ c.toNat ∧ c.toNat ≤ 57 := by
  simp [Char.isDigit, UInt32.le_iff_toNat_le, ← Char.toNat_val]

theorem isWordStart_iff {c : Char} : Piece.isWordStart c = true ↔
    65 ≤ c.toNat ∧ c.toNat ≤ 90 ∨ 97 ≤ c.toNat ∧ c.toNat ≤ 122 ∨ c.toNat = 95 := by
  have underscore : c = '_' ↔ c.toNat = 95 := (Char.toNat_inj (d := '_')).symm
  have upper : c.isUpper = decide (c.val ≥ 65 ∧ c.val ≤ 90) := rfl
  have lower : c.isLower = (decide (c.val ≥ 97) && decide (c.val ≤ 122)) := rfl
  have letter : c.isAlpha = (c.isUpper || c.isLower) := rfl
  simp [Piece.isWordStart, letter, upper, lower, UInt32.le_iff_toNat_le, ← Char.toNat_val,
    or_assoc, underscore]

/-- What a symbol's character is and is not. -/
theorem Symbol.of_ofChar? {c : Char} {s : Symbol} (found : Symbol.ofChar? c = some s) :
    s.spelling = [c] ∧ c ≠ '"' ∧ c.isDigit = false ∧ Piece.isWordStart c = false ∧
      ∀ pair, s.withEqual? = some pair → pair.spelling = [c, '='] := by
  simp only [Symbol.ofChar?] at found
  split at found <;> cases found <;> decide

/-- A symbol is one that its first character is written as, alone or with an equals sign. -/
theorem Symbol.spelling_cases (s : Symbol) :
    (∃ c, s.spelling = [c] ∧ ofChar? c = some s) ∨
      ∃ c first, s.spelling = [c, '='] ∧ ofChar? c = some first ∧ first.withEqual? = some s := by
  cases s with
  | bangEqual | equalEqual | greaterEqual | lessEqual => exact .inr ⟨_, _, rfl, rfl, rfl⟩
  | leftParen | rightParen | leftBrace | rightBrace | comma | dot | minus | plus | semicolon
  | slash | star | bang | equal | greater | less => exact .inl ⟨_, rfl, rfl⟩

/-- Characters up to the first one that is not of the class. -/
theorem takeWhile_stop {p : Char → Bool} {stop : Char} {read more : List Char}
    (stops : p stop = false) (inside : ∀ c ∈ read, p c = true) :
    (read ++ stop :: more).takeWhile p = read := by
  rw [List.takeWhile_append_of_pos inside, List.takeWhile_cons_of_neg (by simp [stops]),
    List.append_nil]

theorem length_le_takeWhile {p : Char → Bool} {read text : List Char} (leads : read <+: text)
    (inside : ∀ c ∈ read, p c = true) : read.length ≤ (text.takeWhile p).length := by
  obtain ⟨after, rfl⟩ := leads
  rw [List.takeWhile_append_of_pos inside, List.length_append]
  exact Nat.le_add_right _ _

theorem of_mem_takeWhile {p : Char → Bool} {text : List Char} {c : Char}
    (member : c ∈ text.takeWhile p) : p c = true :=
  List.all_eq_true.mp List.all_takeWhile c member

namespace Piece
variable {c : Char} {rest : List Char}

theorem not_comment (other : c ≠ '/') : ¬ ['/', '/'] <+: c :: rest := by
  intro leads
  exact other (List.cons_prefix_cons.mp leads).1.symm

theorem quoted_fits (rest : List Char) : (quoted rest).Fits ('"' :: rest) := by
  have parts := rest.takeWhile_append_dropWhile (p := (· ≠ '"'))
  have stops := rest.head?_dropWhile_not (· ≠ '"')
  have clear : '"' ∉ rest.takeWhile (· ≠ '"') := by
    intro member
    have other := of_mem_takeWhile member
    contradiction
  unfold quoted
  cases found : rest.dropWhile (· ≠ '"') with
  | nil =>
    rw [found, List.append_nil] at parts
    exact ⟨by rw [parts], _, rfl, by rwa [parts] at clear⟩
  | cons quote tail =>
    rw [found] at parts stops
    have closing : quote = '"' := by simpa using stops
    subst closing
    refine ⟨.string clear, ⟨tail, ?_⟩, not_comment (by decide), ?_⟩
    · rw [List.cons_append, List.append_assoc]
      exact congrArg _ parts
    · intro other kind spells leads
      have starts := spells.starts_of_prefix leads
      cases spells with
      | @string contents clear' =>
        obtain ⟨after, same⟩ := (List.cons_prefix_cons.mp leads).2
        rw [List.append_assoc] at same
        have inside : ∀ c ∈ contents, decide (c ≠ '"') = true := by
          intro c member
          exact decide_eq_true fun isQuote => clear' (isQuote ▸ member)
        apply Nat.le_of_eq
        rw [← same, List.singleton_append, takeWhile_stop (by decide) inside]
      | symbol | whole | fraction | keyword | identifier => exact absurd starts Bool.false_ne_true

/-- A number that stands at the front of a text that begins with a digit. -/
inductive Digits : List Char → Prop where
  | whole {digits : List Char} : (∀ d ∈ digits, d.isDigit = true) → Digits digits
  | fraction {whole fraction : List Char} : (∀ d ∈ whole, d.isDigit = true) → fraction ≠ [] →
      (∀ d ∈ fraction, d.isDigit = true) → Digits (whole ++ '.' :: fraction)

theorem Digits.of_spells {other : List Char} {kind : Kind} (digit : c.isDigit = true)
    (spells : Spells other kind) (leads : other <+: c :: rest) : Digits other := by
  have starts := spells.starts_of_prefix leads
  cases spells with
  | whole _ digits => exact .whole digits
  | fraction _ whole some digits => exact .fraction whole some digits
  | symbol s =>
    obtain ⟨symbol, found⟩ := Option.isSome_iff_exists.mp starts
    rw [(Symbol.of_ofChar? found).2.2.1] at digit
    contradiction
  | string =>
    have isQuote : c = '"' := starts
    rw [isQuote] at digit
    contradiction
  | keyword | identifier =>
    have letter := isWordStart_iff.mp starts
    have digits := isDigit_iff.mp digit
    omega

theorem numeral_longest {text other : List Char} (digits : Digits other) (leads : other <+: text) :
    other.length ≤ (numeral text).text.length := by
  cases digits with
  | whole inside =>
    have covered := length_le_takeWhile leads inside
    unfold numeral
    dsimp only
    split
    · split
      · exact covered
      · simp only [Piece.text, List.length_append]
        omega
    · exact covered
  | @fraction whole fraction inside some inside' =>
    obtain ⟨more, rfl⟩ := leads
    have stops : '.'.isDigit = false := rfl
    have first : (whole ++ '.' :: (fraction ++ more)).takeWhile Char.isDigit = whole :=
      takeWhile_stop stops inside
    have behind : (whole ++ '.' :: (fraction ++ more)).dropWhile Char.isDigit =
        '.' :: (fraction ++ more) := by
      rw [List.dropWhile_append_of_pos inside, List.dropWhile_cons_of_neg (by decide)]
    have covered : fraction.length ≤ ((fraction ++ more).takeWhile Char.isDigit).length :=
      length_le_takeWhile (List.prefix_append _ _) inside'
    rw [List.append_assoc, List.cons_append]
    unfold numeral
    simp only [first, behind]
    split
    · next none =>
      rw [none, List.length_nil] at covered
      exact absurd (List.eq_nil_of_length_eq_zero (Nat.le_zero.mp covered)) some
    · simp only [Piece.text, List.length_append, List.length_cons]
      omega

theorem numeral_spells (digit : c.isDigit = true) (rest : List Char) :
    ∃ kind read, numeral (c :: rest) = token kind read ∧ Spells read kind := by
  have some : (c :: rest).takeWhile Char.isDigit ≠ [] := by simp [digit]
  have inside (text : List Char) : ∀ d ∈ text.takeWhile Char.isDigit, d.isDigit = true :=
    fun _ => of_mem_takeWhile
  unfold numeral
  dsimp only
  split
  · split
    · exact ⟨_, _, rfl, .whole some (inside _)⟩
    · next some' => exact ⟨_, _, rfl, .fraction some (inside _) some' (inside _)⟩
  · exact ⟨_, _, rfl, .whole some (inside _)⟩

theorem Fits.of_token {kind : Kind} {read : List Char} (spells : Spells read kind)
    (reads : (token kind read).Reads c rest) (plain : ¬ ['/', '/'] <+: c :: rest)
    (longest : ∀ other kind', Spells other kind' → other <+: c :: rest →
      other.length ≤ read.length) : (token kind read).Fits (c :: rest) := by
  obtain ⟨more, covers, leads⟩ := reads.covers
  have covers : read = c :: more := covers
  exact ⟨spells, covers ▸ List.cons_prefix_cons.mpr ⟨rfl, leads⟩, plain, longest⟩

theorem numeral_fits (digit : c.isDigit = true) (rest : List Char) :
    (numeral (c :: rest)).Fits (c :: rest) := by
  obtain ⟨kind, read, same, spells⟩ := numeral_spells digit rest
  have reads := numeral_reads digit rest
  have longest (other : List Char) (kind' : Kind) (spells' : Spells other kind')
      (leads : other <+: c :: rest) : other.length ≤ (numeral (c :: rest)).text.length :=
    numeral_longest (Digits.of_spells digit spells' leads) leads
  have plain : c ≠ '/' := by
    rintro rfl
    contradiction
  rw [same] at reads longest ⊢
  exact .of_token spells reads (not_comment plain) longest

/-- A text that begins with a letter begins with no token but words. -/
theorem chars_of_spells {other : List Char} {kind : Kind} (start : isWordStart c = true)
    (spells : Spells other kind) (leads : other <+: c :: rest) :
    ∃ more, other = c :: more ∧ ∀ d ∈ more, isWordRest d = true := by
  have starts := spells.starts_of_prefix leads
  cases spells with
  | keyword k =>
    obtain ⟨d, more, same, _, inside⟩ := k.word_chars
    rw [same] at leads ⊢
    obtain ⟨rfl, _⟩ := List.cons_prefix_cons.mp leads
    exact ⟨more, rfl, inside⟩
  | identifier _ inside =>
    obtain ⟨rfl, _⟩ := List.cons_prefix_cons.mp leads
    exact ⟨_, rfl, fun d member => by simpa [isWordRest] using inside d member⟩
  | symbol s =>
    obtain ⟨symbol, found⟩ := Option.isSome_iff_exists.mp starts
    rw [(Symbol.of_ofChar? found).2.2.2.1] at start
    contradiction
  | string =>
    have isQuote : c = '"' := starts
    rw [isQuote] at start
    contradiction
  | whole | fraction =>
    have letter := isWordStart_iff.mp start
    have digits := isDigit_iff.mp starts
    omega

theorem word_spells (start : isWordStart c = true) {more : List Char}
    (inside : ∀ d ∈ more, isWordRest d = true) :
    ∃ kind, word (c :: more) = token kind (c :: more) ∧ Spells (c :: more) kind := by
  unfold word
  cases found : Keyword.ofWord? (String.ofList (c :: more)) with
  | some k =>
    have same : k.word = String.ofList (c :: more) := by
      simpa using List.find?_some found
    refine ⟨_, rfl, ?_⟩
    have spells := Spells.keyword k
    rwa [same, String.toList_ofList] at spells
  | none =>
    refine ⟨_, rfl, .identifier ?_ ?_ ?_⟩
    · simpa [isWordStart] using start
    · exact fun d member => by simpa [isWordRest] using inside d member
    · intro k same
      have other := List.find?_eq_none.mp found k k.mem_all
      rw [← same, String.ofList_toList] at other
      simp at other

theorem word_fits (start : isWordStart c = true) (rest : List Char) :
    (word (c :: rest.takeWhile isWordRest)).Fits (c :: rest) := by
  have inside : ∀ d ∈ rest.takeWhile isWordRest, isWordRest d = true := fun _ => of_mem_takeWhile
  obtain ⟨kind, same, spells⟩ := word_spells start inside
  have reads := word_reads c (rest.takeWhile_prefix isWordRest)
  have plain : c ≠ '/' := by
    rintro rfl
    contradiction
  rw [same] at reads ⊢
  refine .of_token spells reads (not_comment plain) fun other kind' spells' leads => ?_
  obtain ⟨more, rfl, inside⟩ := chars_of_spells start spells' leads
  exact Nat.succ_le_succ (length_le_takeWhile (List.cons_prefix_cons.mp leads).2 inside)

/-- A text that begins with a symbol's character begins with no token but symbols. -/
theorem symbol_of_spells {s : Symbol} {other : List Char} {kind : Kind}
    (found : Symbol.ofChar? c = some s) (spells : Spells other kind)
    (leads : other <+: c :: rest) :
    other = [c] ∨ ∃ pair, other = [c, '='] ∧ s.withEqual? = some pair := by
  obtain ⟨_, notQuote, notDigit, notWord, _⟩ := Symbol.of_ofChar? found
  have starts := spells.starts_of_prefix leads
  cases spells with
  | symbol symbol =>
    obtain ⟨d, same, _⟩ | ⟨d, first, same, found', pair⟩ := symbol.spelling_cases
    all_goals
      rw [same] at leads ⊢
      obtain ⟨rfl, _⟩ := List.cons_prefix_cons.mp leads
    · exact .inl rfl
    · rw [found] at found'
      cases found'
      exact .inr ⟨_, rfl, pair⟩
  | string => exact absurd starts notQuote
  | whole | fraction => exact absurd (notDigit.symm.trans starts) Bool.false_ne_true
  | keyword | identifier => exact absurd (notWord.symm.trans starts) Bool.false_ne_true

/-- A symbol stands alone unless an equals sign goes on with it. -/
theorem symbol_cases (s : Symbol) (c : Char) (rest : List Char) :
    (∃ pair, s.withEqual? = some pair ∧ symbol s c rest = token (.symbol pair) [c, '=']) ∨
      symbol s c rest = token (.symbol s) [c] ∧ (s.withEqual? = none ∨ rest.head? ≠ some '=') := by
  unfold symbol
  cases s.withEqual? with
  | none => exact .inr ⟨rfl, .inl rfl⟩
  | some pair =>
    cases rest with
    | nil => exact .inr ⟨rfl, .inr nofun⟩
    | cons d tail =>
      by_cases isEqual : d = '='
      · subst isEqual
        exact .inl ⟨pair, rfl, rfl⟩
      · exact .inr ⟨by simp [isEqual], .inr (by simpa using isEqual)⟩

theorem symbol_fits {s : Symbol} (found : Symbol.ofChar? c = some s)
    (plain : ¬ (c = '/' ∧ rest.head? = some '/')) : (symbol s c rest).Fits (c :: rest) := by
  obtain ⟨single, _, _, _, double⟩ := Symbol.of_ofChar? found
  have plain : ¬ ['/', '/'] <+: c :: rest := by
    intro leads
    obtain ⟨isSlash, leads⟩ := List.cons_prefix_cons.mp leads
    obtain ⟨after, rfl⟩ := leads
    exact plain ⟨isSlash.symm, rfl⟩
  have reads := symbol_reads s c rest
  obtain ⟨pair, isPair, same⟩ | ⟨same, alone⟩ := symbol_cases s c rest
  · have spells := Spells.symbol pair
    rw [double pair isPair] at spells
    rw [same] at reads ⊢
    refine .of_token spells reads plain fun other kind spells' leads => ?_
    rcases symbol_of_spells found spells' leads with rfl | ⟨_, rfl, _⟩
    · exact Nat.le_succ 1
    · exact Nat.le_refl 2
  · have spells := Spells.symbol s
    rw [single] at spells
    rw [same] at reads ⊢
    refine .of_token spells reads plain fun other kind spells' leads => ?_
    rcases symbol_of_spells found spells' leads with rfl | ⟨pair, rfl, isPair⟩
    · exact Nat.le_refl 1
    · obtain ⟨after, rfl⟩ := (List.cons_prefix_cons.mp leads).2
      rcases alone with none | other
      · exact absurd (none.symm.trans isPair) nofun
      · exact absurd rfl other

theorem comment_fits (next : rest.head? = some '/') :
    (comment ('/' :: rest.takeWhile (· ≠ '\n'))).Fits ('/' :: rest) := by
  obtain ⟨rest, rfl⟩ : ∃ more, rest = '/' :: more := by
    cases rest <;> simp_all
  have parts := rest.takeWhile_append_dropWhile (p := (· ≠ '\n'))
  have stops := rest.head?_dropWhile_not (· ≠ '\n')
  refine ⟨rest.takeWhile (· ≠ '\n'), rest.dropWhile (· ≠ '\n'), by simp, ?_, ?_, ?_⟩
  · rw [List.takeWhile_cons_of_pos (by decide), List.cons_append, List.cons_append, parts]
  · intro member
    have other := of_mem_takeWhile member
    contradiction
  · cases found : rest.dropWhile (· ≠ '\n') with
    | nil => exact .inl rfl
    | cons d tail =>
      rw [found] at stops
      exact .inr (by simpa using stops)

/-- Every piece is what it should be, in front of what remains of the text. -/
theorem cut_fits (c : Char) (rest : List Char) : (cut c rest).Fits (c :: rest) := by
  unfold cut
  split
  · next space => exact ⟨rfl, by simpa [isSpace, or_assoc] using space⟩
  · next notSpace =>
    split
    · next isQuote =>
      subst isQuote
      exact quoted_fits rest
    · next notQuote =>
      split
      · next slashes =>
        obtain ⟨rfl, next⟩ := slashes
        exact comment_fits next
      · next plain =>
        split
        · next digit => exact numeral_fits digit rest
        · next notDigit =>
          split
          · next start => exact word_fits start rest
          · next notWord =>
            cases found : Symbol.ofChar? c with
            | some s => exact symbol_fits found plain
            | none =>
              refine ⟨rfl, ?_, fun other kind spells leads => ?_⟩
              · simpa [isSpace, notQuote, and_assoc] using notSpace
              · have starts := spells.starts_of_prefix leads
                cases spells with
                | symbol => simp [Kind.Starts, found] at starts
                | string => exact notQuote starts
                | whole | fraction => exact notDigit starts
                | keyword | identifier => exact notWord starts

end Piece
end ScopeScript
