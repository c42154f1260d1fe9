import Mathlib.Data.List.TakeWhile
import ScopeScript.Proofs.Grammar.Names
import ScopeScript.Proofs.Tree.Relabel

/-! Tokens in another layout. A token that is followed by a blank or by nothing is cut off where it
ends, however its text would go on otherwise: symbols do not take an equals sign, numerals no
fraction, words no letters, and a slash begins no comment. So tokens with blanks and comments
between them are scanned to themselves. -/
namespace ScopeScript

/-- The characters between tokens. -/
def blanks : List Char := [' ', '\t', '\r', '\n']

/-- Blanks, and comments up to the end of their lines. -/
inductive Gap : List Char → Prop where
  | none : Gap []
  | blank {c : Char} {rest : List Char} : c ∈ blanks → Gap rest → Gap (c :: rest)
  | comment {body rest : List Char} : '\n' ∉ body → Gap rest →
      Gap ('/' :: '/' :: (body ++ '\n' :: rest))

/-- A gap that may stand between two tokens begins with a blank. -/
def Separates (gap : List Char) : Prop := Gap gap ∧ ∃ c ∈ blanks, gap.head? = some c

/-- The tokens in their order, each with a gap behind it. Behind the last there may be none. -/
inductive LaidOut : List Token → List Char → Prop where
  | none : LaidOut [] []
  | last {t : Token} {gap : List Char} : gap = [] ∨ Separates gap →
      LaidOut [t] (t.text.toList ++ gap)
  | more {t next : Token} {ts : List Token} {gap text : List Char} : Separates gap →
      LaidOut (next :: ts) text → LaidOut (t :: next :: ts) (t.text.toList ++ (gap ++ text))

/-- Nothing follows, or a blank. -/
def Stops (rest : List Char) : Prop := ∀ c more, rest = c :: more → c ∈ blanks

theorem stops_nil : Stops [] := nofun

theorem Separates.stops {gap : List Char} (separates : Separates gap) (text : List Char) :
    Stops (gap ++ text) := by
  obtain ⟨-, c, isBlank, head⟩ := separates
  obtain ⟨rest, rfl⟩ := List.head?_eq_some_iff.mp head
  rintro _ _ ⟨⟩
  exact isBlank

theorem isSpace_iff {c : Char} : Piece.isSpace c = true ↔ c ∈ blanks := by
  simp [Piece.isSpace, blanks, or_assoc, or_left_comm, or_comm]

section Stop
variable {p : Char → Bool} (blind : ∀ c ∈ blanks, p c = false) {read rest : List Char}
include blind

theorem takeWhile_stops (inside : ∀ c ∈ read, p c = true) (stops : Stops rest) :
    (read ++ rest).takeWhile p = read := by
  cases rest with
  | nil => rw [List.append_nil, List.takeWhile_eq_self_iff.mpr inside]
  | cons c more => exact takeWhile_stop (blind c (stops c more rfl)) inside

theorem dropWhile_stops (inside : ∀ c ∈ read, p c = true) (stops : Stops rest) :
    (read ++ rest).dropWhile p = rest := by
  rw [List.dropWhile_append_of_pos inside]
  cases rest with
  | nil => rfl
  | cons c more => rw [List.dropWhile_cons_of_neg (by simp [blind c (stops c more rfl)])]

end Stop

theorem Stops.head?_ne {rest : List Char} (stops : Stops rest) {c : Char} (other : c ∉ blanks) :
    rest.head? ≠ some c := by
  intro head
  obtain ⟨more, rfl⟩ := List.head?_eq_some_iff.mp head
  exact other (stops c more rfl)

namespace Piece

/-- Where a token begins that is no string, no comment does and nothing is skipped. -/
theorem cut_of_start {c : Char} {rest : List Char} (notBlank : c ∉ blanks) (notQuote : c ≠ '"')
    (notComment : ¬ (c = '/' ∧ rest.head? = some '/')) :
    cut c rest = if c.isDigit then numeral (c :: rest)
      else if isWordStart c then word (c :: rest.takeWhile isWordRest)
      else (Symbol.ofChar? c).elim (unexpected c) (symbol · c rest) := by
  have notSpace : ¬ isSpace c = true := fun space => notBlank (isSpace_iff.mp space)
  rw [cut, if_neg notSpace, if_neg notQuote, if_neg notComment]
  cases Symbol.ofChar? c <;> rfl

theorem quoted_of_closed {contents : List Char} (plain : '"' ∉ contents) (rest : List Char) :
    quoted (contents ++ '"' :: rest) =
      token (.string (String.ofList contents)) ('"' :: (contents ++ ['"'])) := by
  have inside : ∀ c ∈ contents, decide (c ≠ '"') = true := fun c mem =>
    decide_eq_true fun same => plain (same ▸ mem)
  have front : (contents ++ '"' :: rest).takeWhile (· ≠ '"') = contents :=
    takeWhile_stop (by decide) inside
  have back : (contents ++ '"' :: rest).dropWhile (· ≠ '"') = '"' :: rest := by
    rw [List.dropWhile_append_of_pos inside, List.dropWhile_cons_of_neg (by decide)]
  simp only [quoted, front, back]

theorem digits_blind : ∀ c ∈ blanks, c.isDigit = false := by simp [blanks]

theorem wordStart_blind : ∀ c ∈ blanks, isWordStart c = false := by simp [blanks, isWordStart]

theorem wordRest_blind : ∀ c ∈ blanks, isWordRest c = false := by simp [blanks, isWordRest]

theorem symbols_blind : ∀ c ∈ blanks, Symbol.ofChar? c = none := by simp [blanks, Symbol.ofChar?]

theorem numeral_of_whole {digits rest : List Char} (all : ∀ d ∈ digits, d.isDigit = true)
    (stops : Stops rest) :
    numeral (digits ++ rest) = token (.number (Number.read digits [])) digits := by
  unfold numeral
  simp only [takeWhile_stops digits_blind all stops, dropWhile_stops digits_blind all stops]
  split
  · exact absurd rfl (stops.head?_ne (by decide : '.' ∉ blanks))
  · rfl

theorem numeral_of_fraction {whole fraction rest : List Char}
    (all : ∀ d ∈ whole, d.isDigit = true) (some : fraction ≠ [])
    (all' : ∀ d ∈ fraction, d.isDigit = true) (stops : Stops rest) :
    numeral (whole ++ '.' :: (fraction ++ rest)) =
      token (.number (Number.read whole fraction)) (whole ++ '.' :: fraction) := by
  have front : (whole ++ '.' :: (fraction ++ rest)).takeWhile Char.isDigit = whole :=
    takeWhile_stop (by decide) all
  have back : (whole ++ '.' :: (fraction ++ rest)).dropWhile Char.isDigit =
      '.' :: (fraction ++ rest) := by
    rw [List.dropWhile_append_of_pos all, List.dropWhile_cons_of_neg (by decide)]
  obtain ⟨d, others, rfl⟩ := List.exists_cons_of_ne_nil some
  unfold numeral
  simp only [front, back, takeWhile_stops digits_blind all' stops]

/-- What a word is cut to. -/
theorem cut_of_word {c : Char} {more rest : List Char} (start : isWordStart c = true)
    (inside : ∀ d ∈ more, isWordRest d = true) (stops : Stops rest) :
    cut c (more ++ rest) = word (c :: more) := by
  have letter := isWordStart_iff.mp start
  have notDigit : ¬ c.isDigit = true := by
    rw [isDigit_iff]
    omega
  have notBlank : c ∉ blanks := fun isBlank => by
    rw [wordStart_blind c isBlank] at start
    cases start
  rw [cut_of_start notBlank (by rintro rfl; exact absurd start (by decide))
      (by rintro ⟨rfl, -⟩; exact absurd start (by decide)),
    if_neg notDigit, if_pos start, takeWhile_stops wordRest_blind inside stops]

/-- What a symbol is cut to, unless it begins a comment. -/
theorem cut_of_symbol {c : Char} {s : Symbol} (found : Symbol.ofChar? c = some s) {rest : List Char}
    (notComment : rest.head? ≠ some '/') : cut c rest = symbol s c rest := by
  obtain ⟨-, notQuote, notDigit, notLetter, -⟩ := Symbol.of_ofChar? found
  have notBlank : c ∉ blanks := by
    intro isBlank
    rw [symbols_blind c isBlank] at found
    cases found
  rw [cut_of_start notBlank notQuote fun both => notComment both.2, if_neg (by simp [notDigit]),
    if_neg (by simp [notLetter]), found, Option.elim_some]

theorem cut_of_digit {c : Char} (digit : c.isDigit = true) (rest : List Char) :
    cut c rest = numeral (c :: rest) := by
  have notBlank : c ∉ blanks := fun isBlank => by
    rw [digits_blind c isBlank] at digit
    cases digit
  rw [cut_of_start notBlank (by rintro rfl; exact absurd digit (by decide))
    (by rintro ⟨rfl, -⟩; exact absurd digit (by decide)), if_pos digit]

end Piece

theorem Keyword.ofWord?_word (k : Keyword) : ofWord? k.word = some k := by
  cases k <;> decide

/-- A token is cut off where it ends, if nothing or a blank follows. -/
theorem Spells.cut {c : Char} {more rest : List Char} {kind : Kind}
    (spells : Spells (c :: more) kind) (stops : Stops rest) :
    Piece.cut c (more ++ rest) = .token kind (c :: more) := by
  generalize text : c :: more = read at spells
  cases spells with
  | symbol s =>
    rcases s.spelling_cases with ⟨d, spelling, found⟩ | ⟨d, first, spelling, found, pair⟩
    · obtain ⟨rfl, rfl⟩ := List.cons.inj (text.trans spelling)
      rw [List.nil_append, Piece.cut_of_symbol found (stops.head?_ne (by decide)), spelling]
      unfold Piece.symbol
      split
      · exact absurd rfl (stops.head?_ne (by decide : '=' ∉ blanks))
      · rfl
    · obtain ⟨rfl, rfl⟩ := List.cons.inj (text.trans spelling)
      rw [Piece.cut_of_symbol found (by simp), spelling, List.singleton_append]
      simp only [Piece.symbol, pair]
  | @string contents plain =>
    obtain ⟨rfl, rfl⟩ := List.cons.inj text
    rw [List.append_assoc]
    exact Piece.quoted_of_closed plain rest
  | whole some all =>
    subst text
    rw [Piece.cut_of_digit (all c List.mem_cons_self)]
    exact Piece.numeral_of_whole all stops
  | @fraction whole fraction some all some' all' =>
    obtain ⟨d, others, rfl⟩ := List.exists_cons_of_ne_nil some
    obtain ⟨rfl, rfl⟩ := List.cons.inj text
    rw [Piece.cut_of_digit (all c List.mem_cons_self)]
    have grouped : c :: (others.append ('.' :: fraction) ++ rest) =
        c :: others ++ '.' :: (fraction ++ rest) := by
      simp
    rw [grouped]
    exact Piece.numeral_of_fraction all some' all' stops
  | keyword k =>
    obtain ⟨d, others, spelling, start, inside⟩ := k.word_chars
    obtain ⟨rfl, rfl⟩ := List.cons.inj (text.trans spelling)
    rw [Piece.cut_of_word start inside stops, Piece.word, ← spelling, String.ofList_toList,
      k.ofWord?_word]
  | identifier start inside other =>
    obtain ⟨rfl, rfl⟩ := List.cons.inj text
    have letter : Piece.isWordStart c = true := by simpa [Piece.isWordStart] using start
    have letters : ∀ d ∈ more, Piece.isWordRest d = true := fun d mem => by
      simpa [Piece.isWordRest] using inside d mem
    rw [Piece.cut_of_word letter letters stops, Piece.word]
    cases known : Keyword.ofWord? (String.ofList (c :: more)) with
    | none => rfl
    | some k =>
      have word : k.word = String.ofList (c :: more) := by
        simpa using List.find?_some known
      exact absurd (by rw [word, String.toList_ofList]) (other k)

/-! Gaps and layouts in pieces. -/

/-- A piece that leaves nothing behind. -/
def Piece.Skipped : Piece → Prop
  | blank _ | comment _ => True
  | token _ _ | unexpected _ | unterminated _ => False

theorem pieces_token {text rest : List Char} {kind : Kind} (spells : Spells text kind)
    (stops : Stops rest) : pieces (text ++ rest) = .token kind text :: pieces rest := by
  obtain ⟨c, more, rfl, -⟩ := spells.starts
  rw [List.cons_append, pieces, piecesFrom, piecesFrom_eq_drop, spells.cut stops]
  simp [Piece.text]

theorem pieces_blank {c : Char} (isBlank : c ∈ blanks) (rest : List Char) :
    pieces (c :: rest) = .blank c :: pieces rest := by
  rw [pieces, piecesFrom, piecesFrom_eq_drop, Piece.cut, if_pos (isSpace_iff.mpr isBlank)]
  rfl

theorem pieces_comment {body : List Char} (inside : '\n' ∉ body) (rest : List Char) :
    pieces ('/' :: '/' :: (body ++ '\n' :: rest)) =
      .comment ('/' :: '/' :: body) :: pieces ('\n' :: rest) := by
  have all : ∀ c ∈ '/' :: body, decide (c ≠ '\n') = true := by
    intro c mem
    rcases List.mem_cons.mp mem with rfl | mem
    · decide
    · exact decide_eq_true fun same => inside (same ▸ mem)
  have line : ('/' :: (body ++ '\n' :: rest)).takeWhile (· ≠ '\n') = '/' :: body :=
    takeWhile_stop (by decide) all
  have cut : Piece.cut '/' ('/' :: (body ++ '\n' :: rest)) = .comment ('/' :: '/' :: body) := by
    rw [Piece.cut, if_neg (by decide), if_neg (by decide), if_pos ⟨rfl, rfl⟩, line]
  rw [pieces, piecesFrom, piecesFrom_eq_drop, cut]
  simp [Piece.text]

/-- A gap is skipped. -/
theorem Gap.pieces {gap : List Char} (isGap : Gap gap) (rest : List Char) :
    ∃ ps, (∀ p ∈ ps, p.Skipped) ∧
      ScopeScript.pieces (gap ++ rest) = ps ++ ScopeScript.pieces rest := by
  induction isGap with
  | none => exact ⟨[], nofun, rfl⟩
  | @blank c more isBlank _ ih =>
    obtain ⟨ps, skipped, split⟩ := ih
    refine ⟨.blank c :: ps, List.forall_mem_cons.mpr ⟨trivial, skipped⟩, ?_⟩
    rw [List.cons_append, pieces_blank isBlank, split, List.cons_append]
  | @comment body more inside _ ih =>
    obtain ⟨ps, skipped, split⟩ := ih
    refine ⟨.comment ('/' :: '/' :: body) :: .blank '\n' :: ps,
      List.forall_mem_cons.mpr ⟨trivial, List.forall_mem_cons.mpr ⟨trivial, skipped⟩⟩, ?_⟩
    rw [List.cons_append, List.cons_append, List.append_assoc, List.cons_append,
      pieces_comment inside, pieces_blank (by decide), split]
    rfl

/-- Pieces that are tokens one after the other, with skipped pieces between them. -/
inductive Tokenized : List Token → List Piece → Prop where
  | none : Tokenized [] []
  | skip {p : Piece} {ts : List Token} {ps : List Piece} : p.Skipped → Tokenized ts ps →
      Tokenized ts (p :: ps)
  | token {t : Token} {ts : List Token} {ps : List Piece} : Tokenized ts ps →
      Tokenized (t :: ts) (.token t.kind t.text.toList :: ps)

theorem Tokenized.append_skipped {ts : List Token} {front ps : List Piece}
    (skipped : ∀ p ∈ front, p.Skipped) (tokenized : Tokenized ts ps) :
    Tokenized ts (front ++ ps) := by
  induction front with
  | nil => exact tokenized
  | cons p rest ih =>
    obtain ⟨here, later⟩ := List.forall_mem_cons.mp skipped
    exact .skip here (ih later)

theorem LaidOut.tokenized {ts : List Token} {text : List Char} (laid : LaidOut ts text)
    (spelt : Spelt ts) : Tokenized ts (pieces text) := by
  induction laid with
  | none => exact .none
  | @last t gap behind =>
    have spells := (spelt_cons.mp spelt).1
    rcases behind with rfl | separates
    · rw [pieces_token spells stops_nil]
      exact .token .none
    · rw [← List.append_nil gap, pieces_token spells (separates.stops [])]
      obtain ⟨ps, skipped, split⟩ := separates.1.pieces []
      rw [split]
      exact .token (.append_skipped skipped .none)
  | @more t next ts gap text separates _ ih =>
    obtain ⟨spells, later⟩ := spelt_cons.mp spelt
    rw [pieces_token spells (separates.stops text)]
    obtain ⟨ps, skipped, split⟩ := separates.1.pieces text
    rw [split]
    exact .token (.append_skipped skipped (ih later))

/-- Lines forgotten. -/
def Relabel.unlined : Relabel := ⟨fun id => id, fun _ => 0⟩

/-- Tokens with skipped pieces between them are scanned to the same tokens, on whatever lines. -/
theorem Tokenized.openItems_eq {ts : List Token} {ps : List Piece} (tokenized : Tokenized ts ps)
    (line : Nat) :
    (openItems line ps).filterMap Item.error? = [] ∧
      ((openItems line ps).filterMap Item.token?).map (Token.relabel .unlined) =
        ts.map (Token.relabel .unlined) := by
  induction tokenized generalizing line with
  | none => exact ⟨rfl, rfl⟩
  | @skip p ts ps skipped _ ih =>
    have nothing (here : Nat) : p.item? here = Option.none := by
      cases p with
      | blank _ | comment _ => rfl
      | token _ _ | unexpected _ | unterminated _ => exact skipped.elim
    rw [openItems, nothing]
    exact ih _
  | @token t ts ps _ ih =>
    obtain ⟨clean, same⟩ := ih (line + (Piece.token t.kind t.text.toList).newlines)
    rw [openItems, Piece.item?, String.ofList_toList]
    refine ⟨clean, ?_⟩
    exact congrArg (Token.relabel .unlined t :: ·) same

/-- A layout of a source's tokens is scanned to the same tokens, on whatever lines. -/
theorem LaidOut.scanned {source : String} {lead text : List Char} (isGap : Gap lead)
    (laid : LaidOut (innerTokens source) text) :
    lexicalErrors (String.ofList (lead ++ text)) = [] ∧
      (innerTokens (String.ofList (lead ++ text))).map (Token.relabel .unlined) =
        (innerTokens source).map (Token.relabel .unlined) := by
  have tokenized := laid.tokenized (openItems_spelt (pieces_fit _) 1)
  obtain ⟨ps, skipped, split⟩ := isGap.pieces text
  have whole : Tokenized (innerTokens source) (pieces (lead ++ text)) := by
    rw [split]
    exact tokenized.append_skipped skipped
  rw [lexicalErrors_eq, innerTokens, String.toList_ofList]
  exact whole.openItems_eq 1

end ScopeScript
