import ScopeScript.Proofs.Token.Scanner

/-! Tiling a source. The ranges of bytes that the scanner reads piece by piece lie next to each
other and cover the source. Each of them is a slice of it and holds what such a piece may be. -/
namespace ScopeScript

/-- A range of bytes and the piece that it holds. -/
structure Span where
  start : Nat
  stop : Nat
  piece : Piece

/-- The ranges of pieces that lie next to each other. -/
def spansFrom (start : Nat) : List Piece → List Span
  | [] => []
  | piece :: rest =>
    let stop := start + (bytesOf piece.text).length
    ⟨start, stop, piece⟩ :: spansFrom stop rest

/-- The ranges of a source. -/
def spans (source : String) : List Span := spansFrom 0 (pieces source.toList)

/-- Ranges that cover all bytes from `start` to `stop`, none of them twice. -/
def Tiles : Nat → List Span → Nat → Prop
  | start, [], stop => start = stop
  | start, s :: rest, stop => s.start = start ∧ s.start < s.stop ∧ Tiles s.stop rest stop

namespace Span

/-- The line on which a range ends. -/
def line (source : String) (s : Span) : Nat :=
  1 + (source.toByteArray.data.toList.take s.stop).count 10

def item? (source : String) (s : Span) : Option Item := s.piece.item? (s.line source)

/-- A range that is a slice of the source and holds the right piece of it. -/
structure Cut (source : String) (s : Span) : Prop where
  starts : (String.Pos.Raw.mk s.start).IsValid source
  stops : (String.Pos.Raw.mk s.stop).IsValid source
  covers : slice? source s.start s.stop = some (String.ofList s.piece.text)
  fits : ∃ rest, slice? source s.start source.utf8ByteSize = some rest ∧ s.piece.Fits rest.toList

end Span

namespace Scanner

/-- The ranges of bytes that the scanner reads, one by one. -/
def ranges : (bound : Nat) → Scanner → Option (List (Nat × Nat))
  | 0, _ => some []
  | bound + 1, s =>
    if s.ahead.isEmpty then some []
    else do
      let (_, s) ← s.step
      return (s.start, s.curr) :: (← ranges bound s)

/-- Reads pieces up to one that gives an item. -/
def advance : (bound : Nat) → Scanner → Option (Option Item × Scanner)
  | 0, s => some (none, s)
  | bound + 1, s =>
    if s.ahead.isEmpty then some (none, s)
    else do
      match ← s.step with
      | (some item, s) => return (some item, s)
      | (none, s) => advance bound s

/-- The next item. Behind the last piece there is one end of input, and then nothing. -/
def next (s : Scanner) : Option (Option Item × Scanner) := do
  match ← s.advance s.ahead.length with
  | (some item, s) => return (some item, s)
  | (none, s) =>
    if s.closed then return (none, s)
    else return (some (.token ⟨⟨"", s.line⟩, .endOfInput⟩), { s with closed := true })

/-- What the scanner answers when it is asked for the next item once more after `n` times. -/
def answer : (n : Nat) → Scanner → Option (Option Item)
  | 0, s => do return (← s.next).1
  | n + 1, s => do (← s.next).2.answer n

variable {s : Scanner} {before rest : List Char}

theorem ranges_eq (here : s.At before rest) {bound : Nat} (size : rest.length ≤ bound) :
    s.ranges bound = some ((spansFrom s.curr (pieces rest)).map fun r => (r.start, r.stop)) := by
  induction rest using pieces_induction generalizing s before bound with
  | empty =>
    cases bound with
    | zero => rfl
    | succ bound =>
      rw [ranges, here.isEmpty]
      rfl
  | piece c rest more tail covers parts split ih =>
    rw [← parts, List.length_cons, List.length_append] at size
    obtain ⟨bound, rfl⟩ : ∃ n, bound = n + 1 := ⟨bound - 1, by omega⟩
    have shorter : tail.length ≤ bound := by omega
    have later := ih (here.behind covers parts) shorter
    rw [ranges, here.isEmpty]
    simp only [List.isEmpty_cons, step_eq here, Option.bind_eq_bind, Option.bind_some, split,
      spansFrom, later]
    rfl

/-- The pieces ahead give no item and are all read, or their first item comes next. -/
theorem advance_eq (here : s.At before rest) {bound : Nat} (size : rest.length ≤ bound) :
    (∃ t, s.advance bound = some (none, t) ∧ openItems s.line (pieces rest) = [] ∧
      t.At (before ++ rest) [] ∧ t.line = s.line + rest.count '\n' ∧ t.closed = s.closed) ∨
    ∃ item t before' rest', s.advance bound = some (some item, t) ∧
      openItems s.line (pieces rest) = item :: openItems t.line (pieces rest') ∧
      t.At before' rest' ∧ t.line + rest'.count '\n' = s.line + rest.count '\n' ∧
      t.closed = s.closed := by
  induction rest using pieces_induction generalizing s before bound with
  | empty =>
    refine .inl ⟨s, ?_, rfl, by rwa [List.append_nil], rfl, rfl⟩
    cases bound with
    | zero => rfl
    | succ bound =>
      rw [advance, here.isEmpty]
      rfl
  | piece c rest more tail covers parts split ih =>
    have whole : c :: rest = (Piece.cut c rest).text ++ tail := by
      rw [covers, List.cons_append, parts]
    have lines : (s.behind (Piece.cut c rest)).line + tail.count '\n' =
        s.line + (c :: rest).count '\n' := by
      rw [whole, List.count_append, ← Nat.add_assoc]
      rfl
    rw [← parts, List.length_cons, List.length_append] at size
    obtain ⟨bound, rfl⟩ : ∃ n, bound = n + 1 := ⟨bound - 1, by omega⟩
    have shorter : tail.length ≤ bound := by omega
    have there := here.behind covers parts
    rw [split, openItems, advance, here.isEmpty, step_eq here]
    cases found : (Piece.cut c rest).item? (s.line + (Piece.cut c rest).newlines) with
    | some item => exact .inr ⟨item, _, _, _, rfl, rfl, there, lines, rfl⟩
    | none =>
      rcases ih there shorter with ⟨t, read, none, last, line, closed⟩ |
        ⟨item, t, before', rest', read, items, last, line, closed⟩
      · refine .inl ⟨t, read, none, ?_, line.trans lines, closed⟩
        rwa [whole, ← List.append_assoc]
      · exact .inr ⟨item, t, before', rest', read, items, last, line.trans lines, closed⟩

/-- A scanner that has closed its input has no more items. -/
theorem answer_closed (here : s.At before []) (closed : s.closed = true) (n : Nat) :
    s.answer n = some none := by
  have next : s.next = some (none, s) := by
    rw [Scanner.next, here.ahead]
    simp only [bytesOf, List.flatMap_nil, List.length_nil, advance, Option.bind_eq_bind,
      Option.bind_some, closed]
    rfl
  induction n with
  | zero =>
    rw [answer, next]
    rfl
  | succ n ih =>
    rw [answer, next]
    exact ih

/-- Asked again and again, the scanner answers with the items of the pieces ahead, one by one. -/
theorem answer_eq (here : s.At before rest) (opened : s.closed = false) (n : Nat) :
    s.answer n = some (itemsFrom s.line (pieces rest))[n]? := by
  have size : rest.length ≤ s.ahead.length := by
    rw [here.ahead]
    exact length_le_bytesOf rest
  rw [itemsFrom_eq, flatMap_text_pieces]
  induction n generalizing s before rest with
  | zero =>
    rcases advance_eq here size with ⟨t, read, none, _, line, closed⟩ |
      ⟨item, t, before', rest', read, items, _, _, _⟩
    · rw [none, answer, next, read]
      simp [closed, opened, line]
    · rw [items, answer, next, read]
      rfl
  | succ n ih =>
    rcases advance_eq here size with ⟨t, read, none, last, line, closed⟩ |
      ⟨item, t, before', rest', read, items, last, line, closed⟩
    · have last : { t with closed := true }.At (before ++ rest) [] := ⟨last.parts, last.curr⟩
      have ended := answer_closed last rfl n
      rw [none, answer, next, read]
      simp [closed, opened, ended]
    · have size' : rest'.length ≤ t.ahead.length := by
        rw [last.ahead]
        exact length_le_bytesOf rest'
      have later := ih last (closed.trans opened) size'
      rw [items, answer, next, read, List.cons_append, List.getElem?_cons_succ, ← line]
      exact later

end Scanner

/-! The ranges of a source. -/

theorem spansFrom_tiles (text : List Char) (start : Nat) :
    Tiles start (spansFrom start (pieces text)) (start + (bytesOf text).length) := by
  induction text using pieces_induction generalizing start with
  | empty => rfl
  | piece c rest more tail covers parts split ih =>
    have whole : c :: rest = (Piece.cut c rest).text ++ tail := by
      rw [covers, List.cons_append, parts]
    have some : 0 < (bytesOf (Piece.cut c rest).text).length := by
      refine Nat.lt_of_lt_of_le ?_ (length_le_bytesOf _)
      rw [covers]
      exact Nat.succ_pos _
    have later := ih (start + (bytesOf (Piece.cut c rest).text).length)
    rw [Nat.add_assoc, ← List.length_append, ← bytesOf_append, ← whole] at later
    rw [split]
    exact ⟨rfl, Nat.lt_add_of_pos_right some, later⟩

/-- A range between what is in front of its piece and what is behind it. -/
structure Span.Lies (source : String) (s : Span) (before : List Char) (c : Char)
    (rest : List Char) : Prop where
  parts : source.toList = before ++ c :: rest
  piece : s.piece = Piece.cut c rest
  start : s.start = (bytesOf before).length
  stop : s.stop = (bytesOf (before ++ s.piece.text)).length

/-- Every range lies somewhere in the source, and the ranges have the items of the pieces. -/
theorem spansFrom_lie {source : String} {before text : List Char}
    (parts : source.toList = before ++ text) :
    (∀ s ∈ spansFrom (bytesOf before).length (pieces text), ∃ before c rest,
      s.Lies source before c rest) ∧
    openItems (1 + before.count '\n') (pieces text) =
      (spansFrom (bytesOf before).length (pieces text)).filterMap (Span.item? source) := by
  induction text using pieces_induction generalizing before with
  | empty => exact ⟨nofun, rfl⟩
  | piece c rest more tail covers parts' split ih =>
    have whole : c :: rest = (Piece.cut c rest).text ++ tail := by
      rw [covers, List.cons_append, parts']
    have stop : (bytesOf before).length + (bytesOf (Piece.cut c rest).text).length =
        (bytesOf (before ++ (Piece.cut c rest).text)).length := by
      rw [bytesOf_append, List.length_append]
    have parts'' : source.toList = before ++ (Piece.cut c rest).text ++ tail := by
      rw [List.append_assoc, ← whole, parts]
    obtain ⟨later, items⟩ := ih parts''
    rw [split, spansFrom, stop]
    constructor
    · intro s member
      rcases List.mem_cons.mp member with rfl | member
      · exact ⟨before, c, rest, parts, rfl, rfl, rfl⟩
      · exact later s member
    · have line : Span.line source ⟨(bytesOf before).length,
          (bytesOf (before ++ (Piece.cut c rest).text)).length, Piece.cut c rest⟩ =
          1 + before.count '\n' + (Piece.cut c rest).newlines := by
        rw [Span.line, bytesOf_toList, parts'', bytesOf_append (before ++ _), List.take_left,
          count_bytesOf, List.count_append, Nat.add_assoc]
        rfl
      rw [openItems, List.filterMap_cons, Span.item?, line, ← items, List.count_append,
        ← Nat.add_assoc]
      cases (Piece.cut c rest).item? _ <;> rfl

/-- A range that lies in the source is a slice of it with a piece that fits. -/
theorem Span.Lies.cut {source : String} {s : Span} {before : List Char} {c : Char}
    {rest : List Char} (lies : s.Lies source before c rest) : s.Cut source := by
  obtain ⟨parts, piece, start, stop⟩ := lies
  obtain ⟨more, covers, tail, parts'⟩ := (Piece.cut_reads c rest).covers
  have whole : source.toList = before ++ s.piece.text ++ tail := by
    rw [piece, covers, List.append_assoc, List.cons_append, parts', parts]
  constructor
  · rw [start]
    exact isValid_of_append parts
  · rw [stop]
    exact isValid_of_append whole
  · rw [start, stop]
    exact slice?_eq whole
  · have remaining : source.toList = before ++ (c :: rest) ++ [] := by rw [List.append_nil, parts]
    have slice := slice?_eq remaining
    rw [← parts, length_bytesOf source.toList, String.ofList_toList, ← start] at slice
    refine ⟨_, slice, ?_⟩
    rw [String.toList_ofList, piece]
    exact Piece.cut_fits c rest

/-- The scanner tiles its source. The ranges of its pieces cover all bytes in order, each is a slice
with a piece that fits what remains of the source, and the items are those of the ranges, closed by
one end of input. The scanner over bytes reads just these ranges and never misses a slice, and it
answers with these items, one after the other, and then with nothing. -/
theorem scanner_tiles_source (source : String) :
    Tiles 0 (spans source) source.utf8ByteSize ∧
    (∀ s ∈ spans source, s.Cut source) ∧
    scan source = (spans source).filterMap (Span.item? source) ++
      [.token ⟨⟨"", 1 + source.toByteArray.data.toList.count 10⟩, .endOfInput⟩] ∧
    (∀ t, Item.token t ∈ (spans source).filterMap (Span.item? source) → t.kind ≠ .endOfInput) ∧
    Scanner.ranges source.utf8ByteSize { source } =
      some ((spans source).map fun s => (s.start, s.stop)) ∧
    ∀ n, Scanner.answer n { source } = some (scan source)[n]? := by
  have size : (bytesOf source.toList).length = source.utf8ByteSize := by
    rw [length_bytesOf, String.ofList_toList]
  have here : Scanner.At { source } [] source.toList := ⟨rfl, rfl⟩
  obtain ⟨lie, items⟩ := spansFrom_lie here.parts
  refine ⟨?_, ?_, ?_, ?_, ?_, ?_⟩
  · have tiles := spansFrom_tiles source.toList 0
    rwa [Nat.zero_add, size] at tiles
  · intro s member
    obtain ⟨before, c, rest, lies⟩ := lie s member
    exact lies.cut
  · rw [scan, itemsFrom_eq, flatMap_text_pieces, bytesOf_toList, count_bytesOf]
    exact congrArg (· ++ _) items
  · have inner := openItems_inner (pieces_inner source.toList) 1
    exact items ▸ inner
  · have enough := length_le_bytesOf source.toList
    rw [size] at enough
    exact Scanner.ranges_eq here enough
  · intro n
    exact Scanner.answer_eq here rfl n

end ScopeScript
