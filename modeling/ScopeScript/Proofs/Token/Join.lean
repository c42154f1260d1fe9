import ScopeScript.Parse.Cursor
import ScopeScript.Proofs.Tree.Relabel
import ScopeScript.Token.Scan

/-! Scanning a source in two parts. Every piece but a string stops in front of a line break, so two
sources with a line break between them fall into the pieces of the one and then the pieces of the
other. -/
namespace ScopeScript

section Stop
variable {p : Char → Bool} {stop : Char}

theorem takeWhile_append_stop (stops : p stop = false) (text more : List Char) :
    (text ++ stop :: more).takeWhile p = text.takeWhile p := by
  induction text with
  | nil => simp [stops]
  | cons c rest ih => simp only [List.cons_append, List.takeWhile_cons, ih]

theorem dropWhile_append_stop (stops : p stop = false) (text more : List Char) :
    (text ++ stop :: more).dropWhile p = text.dropWhile p ++ stop :: more := by
  induction text with
  | nil => simp [stops]
  | cons c rest ih =>
    simp only [List.cons_append, List.dropWhile_cons, ih]
    split <;> rfl

end Stop

namespace Piece

/-- Any piece but a string left open. -/
def Closed : Piece → Prop
  | unterminated _ => False
  | blank _ | comment _ | token _ _ | unexpected _ => True

theorem quoted_newline {rest : List Char} (closed : (quoted rest).Closed) (more : List Char) :
    quoted (rest ++ '\n' :: more) = quoted rest := by
  unfold quoted at closed ⊢
  cases found : rest.dropWhile (· ≠ '"') with
  | nil =>
    rw [found] at closed
    exact closed.elim
  | cons quote tail =>
    have inside : (rest.takeWhile (· ≠ '"')).length ≠ rest.length := by
      intro whole
      have parts := congrArg List.length (rest.takeWhile_append_dropWhile (p := (· ≠ '"')))
      rw [List.length_append, found, List.length_cons] at parts
      omega
    rw [List.takeWhile_append, if_neg inside, List.dropWhile_append, found]
    rfl

theorem numeral_newline (text more : List Char) :
    numeral (text ++ '\n' :: more) = numeral text := by
  unfold numeral
  rw [takeWhile_append_stop (by decide), dropWhile_append_stop (by decide)]
  cases text.dropWhile Char.isDigit with
  | nil => rfl
  | cons point after =>
    by_cases fraction : point = '.'
    · subst fraction
      have stops : '\n'.isDigit = false := rfl
      simp only [List.cons_append, takeWhile_append_stop stops]
    · simp only [List.cons_append]
      split
      · next h => exact absurd (List.cons.inj h).1 fraction
      · split
        · next h => exact absurd (List.cons.inj h).1 fraction
        · rfl

theorem symbol_newline (s : Symbol) (c : Char) (rest more : List Char) :
    symbol s c (rest ++ '\n' :: more) = symbol s c rest := by
  unfold symbol
  cases s.withEqual? with
  | none => rfl
  | some pair =>
    cases rest with
    | nil => rfl
    | cons d tail =>
      by_cases equal : d = '='
      · subst equal
        rfl
      · simp [equal]

/-- What comes behind a line break does not change the piece in front. -/
theorem cut_newline {c : Char} {rest : List Char} (closed : (cut c rest).Closed)
    (more : List Char) : cut c (rest ++ '\n' :: more) = cut c rest := by
  have head : (rest ++ '\n' :: more).head? = some '/' ↔ rest.head? = some '/' := by
    cases rest <;> simp
  unfold cut at closed ⊢
  simp only [head]
  split
  · rfl
  · next notSpace =>
    rw [if_neg notSpace] at closed
    split
    · next isQuote =>
      rw [if_pos isQuote] at closed
      exact quoted_newline closed more
    · split
      · rw [takeWhile_append_stop (by decide)]
      · split
        · exact numeral_newline (c :: rest) more
        · split
          · rw [takeWhile_append_stop (by decide)]
          · cases Symbol.ofChar? c with
            | none => rfl
            | some s => exact symbol_newline s c rest more

/-- A piece at the front of a text: what it covers, and that it is no end of input. -/
structure Reads (piece : Piece) (c : Char) (rest : List Char) : Prop where
  covers : ∃ more, piece.text = c :: more ∧ more <+: rest
  inner : ∀ kind text, piece = token kind text → kind ≠ .endOfInput

theorem Reads.of_token {kind : Kind} (inner : kind ≠ .endOfInput) {c : Char}
    {more rest : List Char} (covered : more <+: rest) : (token kind (c :: more)).Reads c rest := by
  refine ⟨⟨more, rfl, covered⟩, ?_⟩
  rintro _ _ ⟨⟩
  exact inner

theorem quoted_reads (rest : List Char) : (quoted rest).Reads '"' rest := by
  have parts := rest.takeWhile_append_dropWhile (p := (· ≠ '"'))
  have stops := rest.head?_dropWhile_not (· ≠ '"')
  unfold quoted
  cases found : rest.dropWhile (· ≠ '"') with
  | nil => exact ⟨⟨_, rfl, rest.takeWhile_prefix _⟩, nofun⟩
  | cons quote tail =>
    rw [found] at parts stops
    have closing : quote = '"' := by simpa using stops
    subst closing
    refine .of_token (by nofun) ⟨tail, ?_⟩
    rw [List.append_assoc]
    exact parts

theorem numeral_reads {c : Char} (digit : c.isDigit = true) (rest : List Char) :
    (numeral (c :: rest)).Reads c rest := by
  have whole : (c :: rest).takeWhile Char.isDigit = c :: rest.takeWhile Char.isDigit := by
    rw [List.takeWhile_cons, if_pos digit]
  have behind : (c :: rest).dropWhile Char.isDigit = rest.dropWhile Char.isDigit := by
    rw [List.dropWhile_cons, if_pos digit]
  have parts := rest.takeWhile_append_dropWhile (p := Char.isDigit)
  unfold numeral
  simp only [whole, behind]
  split
  · next after found =>
    split
    · exact .of_token (by nofun) (rest.takeWhile_prefix _)
    · rw [found] at parts
      refine .of_token (by nofun) ⟨after.dropWhile Char.isDigit, ?_⟩
      simpa using parts
  · exact .of_token (by nofun) (rest.takeWhile_prefix _)

theorem word_reads (c : Char) {more rest : List Char} (covered : more <+: rest) :
    (word (c :: more)).Reads c rest := by
  unfold word
  cases Keyword.ofWord? (String.ofList (c :: more)) with
  | none => exact .of_token (by nofun) covered
  | some k => exact .of_token (by nofun) covered

theorem symbol_reads (s : Symbol) (c : Char) (rest : List Char) :
    (symbol s c rest).Reads c rest := by
  unfold symbol
  split
  · exact .of_token (by nofun) (List.prefix_append ['='] _)
  · exact .of_token (by nofun) List.nil_prefix

theorem cut_reads (c : Char) (rest : List Char) : (cut c rest).Reads c rest := by
  unfold cut
  split
  · exact ⟨⟨_, rfl, List.nil_prefix⟩, nofun⟩
  · split
    · next isQuote =>
      subst isQuote
      exact quoted_reads rest
    · split
      · exact ⟨⟨_, rfl, rest.takeWhile_prefix _⟩, nofun⟩
      · split
        · next digit => exact numeral_reads digit rest
        · split
          · exact word_reads c (rest.takeWhile_prefix _)
          · cases Symbol.ofChar? c with
            | none => exact ⟨⟨_, rfl, List.nil_prefix⟩, nofun⟩
            | some s => exact symbol_reads s c rest

end Piece

/-- The first piece, and the pieces of what it leaves. -/
theorem pieces_cons (c : Char) (rest : List Char) :
    ∃ more tail, (Piece.cut c rest).text = c :: more ∧ more ++ tail = rest ∧
      pieces (c :: rest) = Piece.cut c rest :: pieces tail := by
  obtain ⟨more, covers, tail, parts⟩ := (Piece.cut_reads c rest).covers
  refine ⟨more, tail, covers, parts, ?_⟩
  have left : rest.drop ((Piece.cut c rest).text.length - 1) = tail := by
    rw [covers, ← parts]
    simp
  rw [pieces, piecesFrom, piecesFrom_eq_drop, left]

/-- Induction along the pieces of a text. -/
theorem pieces_induction {motive : List Char → Prop} (empty : motive [])
    (piece : ∀ c rest more tail, (Piece.cut c rest).text = c :: more → more ++ tail = rest →
      pieces (c :: rest) = Piece.cut c rest :: pieces tail → motive tail → motive (c :: rest))
    (text : List Char) : motive text := by
  induction length : text.length using Nat.strongRecOn generalizing text with
  | ind n ih =>
    cases text with
    | nil => exact empty
    | cons c rest =>
      obtain ⟨more, tail, covers, parts, split⟩ := pieces_cons c rest
      have shorter : tail.length < n := by
        rw [← length, ← parts]
        simp only [List.length_cons, List.length_append]
        omega
      exact piece c rest more tail covers parts split (ih _ shorter tail rfl)

/-- The pieces of a text are its characters in order. -/
theorem flatMap_text_pieces (text : List Char) : (pieces text).flatMap Piece.text = text := by
  induction text using pieces_induction with
  | empty => rfl
  | piece c rest more tail covers parts split ih =>
    rw [split, List.flatMap_cons, ih, covers, List.cons_append, parts]

theorem pieces_inner (text : List Char) :
    ∀ piece ∈ pieces text, ∀ kind contents, piece = .token kind contents → kind ≠ .endOfInput := by
  induction text using pieces_induction with
  | empty => nofun
  | piece c rest more tail covers parts split ih =>
    intro piece member
    rw [split] at member
    rcases List.mem_cons.mp member with rfl | later
    · exact (Piece.cut_reads c rest).inner
    · exact ih piece later

/-- No piece but a string reaches over a line break. -/
theorem pieces_newline {first : List Char} (closed : ∀ piece ∈ pieces first, piece.Closed)
    (second : List Char) :
    pieces (first ++ '\n' :: second) = pieces first ++ .blank '\n' :: pieces second := by
  induction first using pieces_induction with
  | empty => rfl
  | piece c rest more tail covers parts split ih =>
    rw [split] at closed ⊢
    have here := Piece.cut_newline (closed _ List.mem_cons_self) second
    have later := ih fun piece member => closed piece (List.mem_cons_of_mem _ member)
    have left : (rest ++ '\n' :: second).drop ((Piece.cut c rest).text.length - 1) =
        tail ++ '\n' :: second := by
      rw [covers, ← parts, List.append_assoc]
      simp
    rw [List.cons_append, pieces, piecesFrom, piecesFrom_eq_drop, here, left, later,
      List.cons_append]

/-- Moves everything down by `d` lines. -/
def Relabel.down (d : Nat) : Relabel := ⟨fun id => id, fun line => line + d⟩

def Item.down (d : Nat) : Item → Item
  | token t => token (t.relabel (.down d))
  | error e => error { e with line := e.line + d }

/-- The items of pieces that start on `line`, without the end of input. -/
def openItems (line : Nat) : List Piece → List Item
  | [] => []
  | piece :: rest =>
    (piece.item? (line + piece.newlines)).toList ++ openItems (line + piece.newlines) rest

theorem itemsFrom_eq (line : Nat) (ps : List Piece) :
    itemsFrom line ps = openItems line ps ++
      [.token ⟨⟨"", line + (ps.flatMap Piece.text).count '\n'⟩, .endOfInput⟩] := by
  induction ps generalizing line with
  | nil => rfl
  | cons piece rest ih =>
    simp only [itemsFrom, openItems, ih, List.append_assoc, List.flatMap_cons, List.count_append,
      Piece.newlines, Nat.add_assoc]

theorem Piece.item?_down (piece : Piece) (line d : Nat) :
    piece.item? (line + d) = (piece.item? line).map (Item.down d) := by
  cases piece <;> rfl

theorem openItems_down (line d : Nat) (ps : List Piece) :
    openItems (line + d) ps = (openItems line ps).map (Item.down d) := by
  induction ps generalizing line with
  | nil => rfl
  | cons piece rest ih =>
    have lines : line + d + piece.newlines = line + piece.newlines + d := by omega
    rw [openItems, openItems, lines, ih, Piece.item?_down, List.map_append]
    cases piece.item? (line + piece.newlines) <;> rfl

theorem openItems_append (line : Nat) (first second : List Piece) :
    openItems line (first ++ second) = openItems line first ++
      openItems (line + (first.flatMap Piece.text).count '\n') second := by
  induction first generalizing line with
  | nil => rfl
  | cons piece rest ih =>
    simp only [List.cons_append, openItems, ih, List.append_assoc, List.flatMap_cons,
      List.count_append, Piece.newlines, Nat.add_assoc]

theorem mem_openItems {piece : Piece} {ps : List Piece} (member : piece ∈ ps) (line : Nat) :
    ∃ here, ∀ item ∈ piece.item? here, item ∈ openItems line ps := by
  induction ps generalizing line with
  | nil => contradiction
  | cons first rest ih =>
    rcases List.mem_cons.mp member with rfl | later
    · refine ⟨line + piece.newlines, fun item found => ?_⟩
      exact List.mem_append_left _ (Option.mem_toList.mpr found)
    · obtain ⟨here, found⟩ := ih later (line + first.newlines)
      exact ⟨here, fun item held => List.mem_append_right _ (found item held)⟩

/-- How many line breaks a source has. -/
def lineBreaks (source : String) : Nat := source.toList.count '\n'

/-- The tokens of a source in front of the end of input. -/
def innerTokens (source : String) : List Token :=
  (openItems 1 (pieces source.toList)).filterMap Item.token?

theorem scan_eq (source : String) :
    scan source = openItems 1 (pieces source.toList) ++
      [.token ⟨⟨"", 1 + lineBreaks source⟩, .endOfInput⟩] := by
  rw [scan, itemsFrom_eq, flatMap_text_pieces]
  rfl

theorem tokens_eq (source : String) :
    tokens source =
      innerTokens source ++ [⟨⟨"", 1 + lineBreaks source⟩, .endOfInput⟩] := by
  rw [tokens, scan_eq, List.filterMap_append]
  rfl

theorem lexicalErrors_eq (source : String) :
    lexicalErrors source = (openItems 1 (pieces source.toList)).filterMap Item.error? := by
  rw [lexicalErrors, scan_eq, List.filterMap_append]
  exact List.append_nil _

/-- Every string of the source is closed. Other lexical errors may be in it. -/
def Terminated (source : String) : Prop :=
  ∀ e ∈ lexicalErrors source, e.cause ≠ .unterminatedString

theorem Terminated.of_clean {source : String} (lexed : lexicalErrors source = []) :
    Terminated source := by
  rw [Terminated, lexed]
  nofun

theorem Terminated.closed {source : String} (terminated : Terminated source) :
    ∀ piece ∈ pieces source.toList, piece.Closed := by
  intro piece member
  cases piece with
  | unterminated text =>
    obtain ⟨here, held⟩ := mem_openItems member 1
    have reported : ⟨.unterminatedString, here⟩ ∈ lexicalErrors source := by
      rw [lexicalErrors_eq]
      exact List.mem_filterMap.mpr ⟨_, held _ rfl, rfl⟩
    exact absurd rfl (terminated _ reported)
  | blank _ | comment _ | token _ _ | unexpected _ => trivial

theorem openItems_inner {ps : List Piece}
    (inner : ∀ piece ∈ ps, ∀ kind text, piece = .token kind text → kind ≠ .endOfInput)
    (line : Nat) : ∀ t, Item.token t ∈ openItems line ps → t.kind ≠ .endOfInput := by
  induction ps generalizing line with
  | nil => nofun
  | cons piece rest ih =>
    intro t member
    rcases List.mem_append.mp member with here | later
    · cases piece with
      | token kind text =>
        simp only [Piece.item?, Option.toList_some, List.mem_singleton, Item.token.injEq] at here
        rw [here]
        exact inner _ List.mem_cons_self kind text rfl
      | blank _ | comment _ | unexpected _ | unterminated _ => simp [Piece.item?] at here
    · exact ih (fun p held => inner p (List.mem_cons_of_mem _ held)) _ t later

theorem innerTokens_kind (source : String) :
    ∀ t ∈ innerTokens source, t.kind ≠ .endOfInput := by
  intro t member
  obtain ⟨item, held, found⟩ := List.mem_filterMap.mp member
  cases item with
  | token u =>
    cases found
    exact openItems_inner (pieces_inner source.toList) 1 t held
  | error e => cases found

/-- A source is read up to the end of input. -/
theorem ofTokens_tokens (source : String) (nextId : ExprId) :
    Cursor.ofTokens (tokens source) nextId =
      ⟨innerTokens source, 1 + lineBreaks source, nextId⟩ := by
  have inner : ∀ t ∈ innerTokens source, decide (t.kind ≠ .endOfInput) = true := by
    intro t member
    exact decide_eq_true (innerTokens_kind source t member)
  have closing : ∀ t ∈ innerTokens source, ¬decide (t.kind = .endOfInput) = true := by
    intro t member
    simpa using innerTokens_kind source t member
  rw [Cursor.ofTokens, tokens_eq, List.takeWhile_append_of_pos inner, List.find?_append,
    List.find?_eq_none.mpr closing]
  simp

theorem filterMap_token?_down (d : Nat) (items : List Item) :
    (items.map (Item.down d)).filterMap Item.token? =
      (items.filterMap Item.token?).map (Token.relabel (.down d)) := by
  rw [List.filterMap_map, List.map_filterMap]
  congr 1
  funext item
  cases item <;> rfl

theorem filterMap_error?_down {items : List Item} (clean : items.filterMap Item.error? = [])
    (d : Nat) : (items.map (Item.down d)).filterMap Item.error? = [] := by
  rw [List.filterMap_eq_nil_iff] at clean
  rw [List.filterMap_map, List.filterMap_eq_nil_iff]
  intro item member
  cases item with
  | token t => rfl
  | error e => exact absurd (clean _ member) nofun

theorem openItems_join {first : String} (terminated : Terminated first) (second : String) :
    openItems 1 (pieces (first ++ "\n" ++ second).toList) = openItems 1 (pieces first.toList) ++
      (openItems 1 (pieces second.toList)).map (Item.down (1 + lineBreaks first)) := by
  have text : (first ++ "\n" ++ second).toList = first.toList ++ '\n' :: second.toList := by
    simp [String.toList_append]
  rw [text, pieces_newline terminated.closed, openItems_append, flatMap_text_pieces,
    ← openItems_down, Nat.add_comm 1 (lineBreaks first), ← Nat.add_assoc]
  rfl

theorem innerTokens_join {first : String} (lexed : lexicalErrors first = [])
    (second : String) :
    innerTokens (first ++ "\n" ++ second) = innerTokens first ++
      (innerTokens second).map (Token.relabel (.down (1 + lineBreaks first))) := by
  rw [innerTokens, openItems_join (.of_clean lexed), List.filterMap_append, filterMap_token?_down]
  rfl

theorem lexicalErrors_join {first second : String} (lexed : lexicalErrors first = [])
    (lexed' : lexicalErrors second = []) : lexicalErrors (first ++ "\n" ++ second) = [] := by
  rw [lexicalErrors_eq, openItems_join (.of_clean lexed), List.filterMap_append, ← lexicalErrors_eq,
    lexed]
  rw [lexicalErrors_eq] at lexed'
  exact filterMap_error?_down lexed' _

end ScopeScript
