import ScopeScript.Proofs.Token.Longest

/-! A scanner over bytes. It looks at single bytes of a source, past the end at zeros, and takes
slices of the source, which there are only between the boundaries of characters. It finds the same
pieces as a scanner over characters: whatever it compares a byte with is a character of one byte,
and no byte of a longer character looks like one of those. -/
namespace ScopeScript

/-- The slice of a source between two of its bytes. -/
def slice? (source : String) (start stop : Nat) : Option String :=
  if valid : start ≤ stop ∧ (String.Pos.Raw.mk start).IsValid source ∧
      (String.Pos.Raw.mk stop).IsValid source then
    some (source.extract ⟨_, valid.2.1⟩ ⟨_, valid.2.2⟩)
  else none

/-- The piece in front of byte `curr` begins at byte `start`. -/
structure Scanner where
  source : String
  start : Nat := 0
  curr : Nat := 0
  line : Nat := 1
  closed : Bool := false

namespace Scanner

/-- The bytes that have not been looked at. -/
def ahead (s : Scanner) : List UInt8 := s.source.toByteArray.data.toList.drop s.curr

/-- A byte further on, and zero past the end. -/
def peek (s : Scanner) (n : Nat) : Char := .ofUInt8 (s.ahead.getD n 0)

def skip (n : Nat) (s : Scanner) : Scanner := { s with curr := s.curr + n }

def skipWhile (p : Char → Bool) (s : Scanner) : Scanner :=
  s.skip (s.ahead.takeWhile fun b => p (.ofUInt8 b)).length

/-- What a piece turns out to be. -/
abbrev Reading := Except LexicalCause (Option Kind)

/-- Passes over some bytes and counts the lines that end in them. -/
def pass (inside : List UInt8) (s : Scanner) : Scanner :=
  { s with curr := s.curr + inside.length, line := s.line + inside.count 10 }

/-- A string whose opening quote has been read. -/
def string (s : Scanner) : Option (Reading × Scanner) :=
  let s := s.pass (s.ahead.takeWhile fun b => Char.ofUInt8 b ≠ '"')
  if s.ahead.isEmpty then some (.error .unterminatedString, s)
  else do
    let s := s.skip 1
    let contents ← slice? s.source (s.start + 1) (s.curr - 1)
    return (.ok (some (.string contents)), s)

/-- The end of a number whose first digit has been read. -/
def numberEnd (s : Scanner) : Scanner :=
  let s := s.skipWhile Char.isDigit
  if s.peek 0 = '.' ∧ (s.peek 1).isDigit then (s.skip 1).skipWhile Char.isDigit else s

def number (s : Scanner) : Option (Reading × Scanner) := do
  let s := s.numberEnd
  let text := (← slice? s.source s.start s.curr).toList
  let value := Number.read (text.takeWhile Char.isDigit) (text.dropWhile Char.isDigit).tail
  return (.ok (some (.number value)), s)

/-- A word whose first character has been read. -/
def word (s : Scanner) : Option (Reading × Scanner) := do
  let s := s.skipWhile Piece.isWordRest
  match Keyword.ofWord? (← slice? s.source s.start s.curr) with
  | some k => return (.ok (some (.keyword k)), s)
  | none => return (.ok (some .identifier), s)

/-- A symbol, with the equals sign that goes on with it. -/
def symbol (symbol : Symbol) (s : Scanner) : Reading × Scanner :=
  match symbol.withEqual? with
  | some pair =>
    if s.peek 0 = '=' then (.ok (some (.symbol pair)), s.skip 1)
    else (.ok (some (.symbol symbol)), s)
  | none => (.ok (some (.symbol symbol)), s)

/-- A character that begins nothing. -/
def unexpected (s : Scanner) : Option (Reading × Scanner) := do
  let c := (← slice? s.source s.start s.source.utf8ByteSize).toList.headD '\ufffd'
  return (.error (.unexpectedCharacter c), { s with curr := s.start + c.utf8Size })

/-- Reads a piece from `start` on. There is none if a slice of it is missing. -/
def piece (s : Scanner) : Option (Reading × Scanner) :=
  match s.ahead with
  | [] => none
  | b :: _ =>
    let c := Char.ofUInt8 b
    let s := s.skip 1
    if c = '\n' then some (.ok none, { s with line := s.line + 1 })
    else if Piece.isSpace c then some (.ok none, s)
    else if c = '"' then s.string
    else if c = '/' ∧ s.peek 0 = '/' then some (.ok none, s.skipWhile (· ≠ '\n'))
    else if c.isDigit then s.number
    else if Piece.isWordStart c then s.word
    else match Symbol.ofChar? c with
      | some symbol => some (s.symbol symbol)
      | none => s.unexpected

/-- Reads the next piece and makes an item of it. -/
def step (s : Scanner) : Option (Option Item × Scanner) := do
  let (reading, s) ← { s with start := s.curr }.piece
  match reading with
  | .error cause => return (some (.error ⟨cause, s.line⟩), s)
  | .ok none => return (none, s)
  | .ok (some kind) => return (some (.token ⟨⟨← slice? s.source s.start s.curr, s.line⟩, kind⟩), s)

end Scanner

/-- What the scanner says of a piece. -/
def Piece.reading : Piece → Scanner.Reading
  | .blank _ | .comment _ => .ok none
  | .token kind _ => .ok (some kind)
  | .unexpected c => .error (.unexpectedCharacter c)
  | .unterminated _ => .error .unterminatedString

/-! Bytes of characters. -/

/-- The bytes of a text. -/
def bytesOf (text : List Char) : List UInt8 := text.flatMap String.utf8EncodeChar

theorem bytesOf_cons (c : Char) (rest : List Char) :
    bytesOf (c :: rest) = String.utf8EncodeChar c ++ bytesOf rest := rfl

theorem bytesOf_append (first second : List Char) :
    bytesOf (first ++ second) = bytesOf first ++ bytesOf second := List.flatMap_append

theorem bytesOf_toList (source : String) :
    source.toByteArray.data.toList = bytesOf source.toList := by
  rw [← String.ofList_toList (s := source), String.toByteArray_ofList, String.toList_ofList]
  simp [List.utf8Encode, bytesOf]

theorem length_bytesOf (text : List Char) :
    (bytesOf text).length = (String.ofList text).utf8ByteSize := by
  rw [String.utf8ByteSize, String.toByteArray_ofList]
  simp [List.utf8Encode, bytesOf]

theorem length_le_bytesOf (text : List Char) : text.length ≤ (bytesOf text).length := by
  induction text with
  | nil => exact Nat.le_refl 0
  | cons c rest ih =>
    have some := c.utf8Size_pos
    rw [bytesOf_cons, List.length_append, String.length_utf8EncodeChar, List.length_cons]
    omega

theorem ofUInt8_toNat (b : UInt8) : (Char.ofUInt8 b).toNat = b.toNat := rfl

/-- A character of one byte. -/
theorem encode_narrow {c : Char} (narrow : c.toNat < 128) :
    ∃ b, String.utf8EncodeChar c = [b] ∧ Char.ofUInt8 b = c := by
  refine ⟨UInt8.ofNat c.toNat, ?_, ?_⟩
  · have small : c.val.toNat ≤ 127 := Nat.le_of_lt_succ narrow
    simp only [String.utf8EncodeChar, if_pos small]
    rfl
  · rw [← Char.toNat_inj, ofUInt8_toNat, UInt8.toNat_ofNat', Nat.mod_eq_of_lt (by omega)]

/-- A character of more than one byte. -/
theorem encode_wide {c : Char} (wide : 128 ≤ c.toNat) :
    ∃ b more, String.utf8EncodeChar c = b :: more ∧ ∀ x ∈ b :: more, 128 ≤ x.toNat := by
  have large : ¬ c.val.toNat ≤ 127 := Nat.not_le.mpr wide
  simp only [String.utf8EncodeChar, if_neg large]
  split
  · refine ⟨_, _, rfl, ?_⟩
    simp only [List.mem_cons, List.not_mem_nil, or_false, forall_eq_or_imp, forall_eq,
      UInt8.toNat_ofNat']
    omega
  · split <;> refine ⟨_, _, rfl, ?_⟩ <;>
      simp only [List.mem_cons, List.not_mem_nil, or_false, forall_eq_or_imp, forall_eq,
        UInt8.toNat_ofNat'] <;> omega

/-- A class of characters that are all of one byte, or whose complement is. -/
def Uniform (p : Char → Bool) : Prop := ∃ b, ∀ c : Char, 128 ≤ c.toNat → p c = b

/-- Reading bytes up to one outside of such a class is reading characters up to one outside. -/
theorem takeWhile_bytesOf {p : Char → Bool} (uniform : Uniform p) (text : List Char) :
    (bytesOf text).takeWhile (fun b => p (.ofUInt8 b)) = bytesOf (text.takeWhile p) := by
  obtain ⟨keep, wide⟩ := uniform
  induction text with
  | nil => rfl
  | cons c rest ih =>
    by_cases size : c.toNat < 128
    · obtain ⟨b, encoded, same⟩ := encode_narrow size
      rw [bytesOf_cons, encoded, List.singleton_append, List.takeWhile_cons, List.takeWhile_cons,
        same, ih]
      split
      · rw [bytesOf_cons, encoded, List.singleton_append]
      · rfl
    · obtain ⟨b, more, encoded, all⟩ := encode_wide (Nat.le_of_not_lt size)
      have each : ∀ x ∈ b :: more, p (.ofUInt8 x) = keep := fun x member => wide _ (all x member)
      rw [List.takeWhile_cons, wide c (Nat.le_of_not_lt size)]
      cases keep with
      | true =>
        rw [bytesOf_cons, encoded, List.takeWhile_append_of_pos each, ih, if_pos rfl, bytesOf_cons,
          encoded]
      | false =>
        rw [bytesOf_cons, encoded, List.cons_append, List.takeWhile_cons, each b List.mem_cons_self]
        rfl

theorem count_bytesOf (text : List Char) : (bytesOf text).count 10 = text.count '\n' := by
  induction text with
  | nil => rfl
  | cons c rest ih =>
    rw [bytesOf_cons, List.count_append, ih, List.count_cons, Nat.add_comm]
    congr 1
    by_cases size : c.toNat < 128
    · obtain ⟨b, encoded, rfl⟩ := encode_narrow size
      have same : Char.ofUInt8 b = '\n' ↔ b = 10 := by
        rw [← Char.toNat_inj, ← UInt8.toNat_inj]
        rfl
      simp only [encoded, List.count_singleton, beq_iff_eq, same]
    · obtain ⟨b, more, encoded, all⟩ := encode_wide (Nat.le_of_not_lt size)
      have other : c ≠ '\n' := by
        rintro rfl
        contradiction
      rw [encoded, if_neg (by simpa using other), List.count_eq_zero]
      intro member
      exact absurd (all 10 member) (by decide)

/-! Where a scanner is in its source. -/

/-- Between two characters there is a boundary. -/
theorem isValid_of_append {source : String} {before after : List Char}
    (parts : source.toList = before ++ after) :
    (String.Pos.Raw.mk (bytesOf before).length).IsValid source := by
  refine String.Pos.Raw.isValid_iff_exists_append.mpr
    ⟨String.ofList before, String.ofList after, ?_, ?_⟩
  · rw [← String.ofList_append, ← parts, String.ofList_toList]
  · rw [length_bytesOf]
    rfl

theorem slice?_eq {source : String} {before text after : List Char}
    (parts : source.toList = before ++ text ++ after) :
    slice? source (bytesOf before).length (bytesOf (before ++ text)).length =
      some (String.ofList text) := by
  have ordered : (bytesOf before).length ≤ (bytesOf (before ++ text)).length := by
    rw [bytesOf_append, List.length_append]
    exact Nat.le_add_right _ _
  have valid := isValid_of_append parts
  have valid' : (String.Pos.Raw.mk (bytesOf before).length).IsValid source := by
    rw [List.append_assoc] at parts
    exact isValid_of_append parts
  rw [slice?, dif_pos ⟨ordered, valid', valid⟩, Option.some_inj, ← String.toByteArray_inj,
    String.toByteArray_extract]
  apply ByteArray.ext
  apply Array.toList_inj.mp
  rw [ByteArray.data_extract, Array.toList_extract, bytesOf_toList, bytesOf_toList, parts,
    String.toList_ofList]
  simp [List.extract, bytesOf_append]

namespace Scanner

/-- The scanner stands between two parts of its source. -/
structure At (s : Scanner) (before rest : List Char) : Prop where
  parts : s.source.toList = before ++ rest
  curr : s.curr = (bytesOf before).length

/-- The scanner behind some text. -/
def after (s : Scanner) (text : List Char) : Scanner :=
  { s with curr := s.curr + (bytesOf text).length, line := s.line + text.count '\n' }

@[simp] theorem after_source (s : Scanner) (text : List Char) : (s.after text).source = s.source :=
  rfl

@[simp] theorem after_start (s : Scanner) (text : List Char) : (s.after text).start = s.start := rfl

theorem after_after (s : Scanner) (first second : List Char) :
    (s.after first).after second = s.after (first ++ second) := by
  simp only [after, bytesOf_append, List.length_append, List.count_append, Nat.add_assoc]

variable {s : Scanner} {before text rest : List Char} {c : Char} {p : Char → Bool}

theorem At.after (here : s.At before (text ++ rest)) : (s.after text).At (before ++ text) rest where
  parts := by rw [List.append_assoc]; exact here.parts
  curr := by rw [bytesOf_append, List.length_append, ← here.curr]; rfl

theorem At.ahead (here : s.At before rest) : s.ahead = bytesOf rest := by
  rw [Scanner.ahead, bytesOf_toList, here.parts, here.curr, bytesOf_append, List.drop_left]

/-- A byte that is looked at belongs to a class if and only if there is a character and it does. -/
theorem At.peek (here : s.At before rest) (narrow : ∀ c : Char, 128 ≤ c.toNat → p c = false)
    (zero : p '\x00' = false) : p (s.peek 0) = rest.head?.any p := by
  rw [Scanner.peek, here.ahead]
  cases rest with
  | nil => exact zero
  | cons c rest =>
    rw [bytesOf_cons]
    by_cases size : c.toNat < 128
    · obtain ⟨b, encoded, rfl⟩ := encode_narrow size
      rw [encoded]
      rfl
    · obtain ⟨b, more, encoded, all⟩ := encode_wide (Nat.le_of_not_lt size)
      rw [encoded]
      have wide := narrow c (Nat.le_of_not_lt size)
      exact (narrow (.ofUInt8 b) (all b List.mem_cons_self)).trans wide.symm

theorem At.peek_eq (here : s.At before rest) (narrow : c.toNat < 128) (positive : c ≠ '\x00') :
    s.peek 0 = c ↔ rest.head? = some c := by
  have wide : ∀ d : Char, 128 ≤ d.toNat → (d == c) = false := by
    intro d wide
    simp only [beq_eq_false_iff_ne]
    rintro rfl
    omega
  have same := here.peek wide (by simpa using positive.symm)
  rw [← beq_iff_eq, same]
  cases rest <;> simp

theorem peek_one (s : Scanner) : s.peek 1 = (s.skip 1).peek 0 := by
  simp only [Scanner.peek, Scanner.ahead, skip, List.getD_eq_getElem?_getD, List.getElem?_drop,
    Nat.add_zero]

theorem skip_one (s : Scanner) (narrow : c.toNat < 128) (inline : c ≠ '\n') :
    s.skip 1 = s.after [c] := by
  obtain ⟨b, encoded, _⟩ := encode_narrow narrow
  simp [skip, Scanner.after, bytesOf, encoded, inline]

theorem At.skipWhile_eq (here : s.At before rest) (uniform : Uniform p) (inline : p '\n' = false) :
    s.skipWhile p = s.after (rest.takeWhile p) := by
  have none : (rest.takeWhile p).count '\n' = 0 := by
    rw [List.count_eq_zero]
    intro member
    exact absurd (of_mem_takeWhile member) (by simp [inline])
  rw [skipWhile, here.ahead, takeWhile_bytesOf uniform, skip, Scanner.after, none, Nat.add_zero]

theorem At.slice (here : s.At before (text ++ rest)) :
    slice? s.source s.curr (s.after text).curr = some (String.ofList text) := by
  have parts : s.source.toList = before ++ text ++ rest := by rw [here.parts, List.append_assoc]
  have slice := slice?_eq parts
  rwa [← here.curr, ← here.after.curr] at slice

/-! One piece. -/

theorem not_isDigit (c : Char) (wide : 128 ≤ c.toNat) : c.isDigit = false := by
  rw [← Bool.not_eq_true, isDigit_iff]
  omega

theorem uniform_isDigit : Uniform Char.isDigit := ⟨false, not_isDigit⟩

theorem uniform_isWordRest : Uniform Piece.isWordRest := by
  refine ⟨false, fun c wide => ?_⟩
  have notStart : ¬ Piece.isWordStart c = true := by
    rw [isWordStart_iff]
    omega
  simp only [Piece.isWordStart, Bool.or_eq_true, not_or] at notStart
  simp [Piece.isWordRest, Char.isAlphanum, notStart, not_isDigit c wide]

theorem uniform_ne {c : Char} (narrow : c.toNat < 128) : Uniform fun d => decide (d ≠ c) := by
  refine ⟨true, fun d wide => decide_eq_true ?_⟩
  rintro rfl
  omega

theorem At.isEmpty (here : s.At before rest) : s.ahead.isEmpty = rest.isEmpty := by
  rw [here.ahead]
  cases rest with
  | nil => rfl
  | cons c rest =>
    by_cases size : c.toNat < 128
    · obtain ⟨b, encoded, _⟩ := encode_narrow size
      rw [bytesOf_cons, encoded]
      rfl
    · obtain ⟨b, more, encoded, _⟩ := encode_wide (Nat.le_of_not_lt size)
      rw [bytesOf_cons, encoded]
      rfl

theorem pass_bytesOf (s : Scanner) (text : List Char) : s.pass (bytesOf text) = s.after text := by
  rw [pass, count_bytesOf, Scanner.after]

theorem string_eq (here : s.At before ('"' :: rest)) (begins : s.start = s.curr) :
    (s.after ['"']).string =
      some ((Piece.quoted rest).reading, s.after (Piece.quoted rest).text) := by
  have inside := takeWhile_bytesOf (uniform_ne (c := '"') (by decide)) rest
  have parts := rest.takeWhile_append_dropWhile (p := (· ≠ '"'))
  have stops := rest.head?_dropWhile_not (· ≠ '"')
  unfold Piece.quoted
  generalize rest.takeWhile (· ≠ '"') = contents at inside parts ⊢
  have behind : (s.after ['"']).At (before ++ ['"']) rest := here.after
  have ending : (s.after ('"' :: contents)).At (before ++ '"' :: contents)
      (rest.dropWhile (· ≠ '"')) := by
    apply At.after
    rwa [List.cons_append, parts]
  simp only [string, behind.ahead, inside, pass_bytesOf, after_after, List.singleton_append,
    ending.isEmpty]
  cases found : rest.dropWhile (· ≠ '"') with
  | nil => rfl
  | cons quote tail =>
    rw [found] at parts stops
    have closing : quote = '"' := by simpa using stops
    subst closing
    have closed : (s.after ('"' :: contents)).skip 1 = s.after ('"' :: (contents ++ ['"'])) := by
      rw [skip_one (c := '"') _ (by decide) (by decide), after_after]
      rfl
    -- the contents lie between the two quotes
    have slice : slice? s.source (s.start + 1) ((s.after ('"' :: (contents ++ ['"']))).curr - 1) =
        some (String.ofList contents) := by
      have between : (s.after ['"']).At (before ++ ['"']) (contents ++ '"' :: tail) := by
        rwa [parts]
      have last : (s.after ('"' :: (contents ++ ['"']))).curr - 1 =
          ((s.after ['"']).after contents).curr := by
        rw [← closed, after_after]
        rfl
      rw [begins, last]
      exact between.slice
    simp only [List.isEmpty_cons, closed, after_source, after_start, slice]
    rfl

theorem takeWhile_eq_nil_iff {text : List Char} :
    text.takeWhile p = [] ↔ text.head?.any p = false := by
  cases text with
  | nil => simp
  | cons c rest => cases held : p c <;> simp [held]

/-- The value of a number can be read off its text. -/
theorem numeral_eq (text : List Char) :
    ∃ read, Piece.numeral text = .token (.number
      (Number.read (read.takeWhile Char.isDigit) (read.dropWhile Char.isDigit).tail)) read := by
  have inside : ∀ d ∈ text.takeWhile Char.isDigit, d.isDigit = true := fun _ => of_mem_takeWhile
  have whole : (text.takeWhile Char.isDigit).takeWhile Char.isDigit = text.takeWhile Char.isDigit ∧
      (text.takeWhile Char.isDigit).dropWhile Char.isDigit = [] := by
    have all := @List.takeWhile_append_of_pos _ _ _ [] inside
    have none := @List.dropWhile_append_of_pos _ _ _ [] inside
    rw [List.append_nil] at all none
    exact ⟨all.trans (List.append_nil _), none⟩
  unfold Piece.numeral
  dsimp only
  split
  · split
    · exact ⟨text.takeWhile Char.isDigit, by rw [whole.1, whole.2]; rfl⟩
    · next after _ _ _ =>
      refine ⟨text.takeWhile Char.isDigit ++ '.' :: after.takeWhile Char.isDigit, ?_⟩
      have stops : '.'.isDigit = false := rfl
      rw [takeWhile_stop stops inside, List.dropWhile_append_of_pos inside,
        List.dropWhile_cons_of_neg (by decide)]
      rfl
  · exact ⟨text.takeWhile Char.isDigit, by rw [whole.1, whole.2]; rfl⟩

theorem numberEnd_eq (here : s.At before (c :: rest)) (digit : c.isDigit = true) :
    (s.after [c]).numberEnd = s.after (Piece.numeral (c :: rest)).text := by
  have behind : (s.after [c]).At (before ++ [c]) rest := here.after
  have parts := (c :: rest).takeWhile_append_dropWhile (p := Char.isDigit)
  have skipped : (s.after [c]).skipWhile Char.isDigit =
      s.after ((c :: rest).takeWhile Char.isDigit) := by
    rw [behind.skipWhile_eq uniform_isDigit rfl, after_after, List.takeWhile_cons_of_pos digit]
    rfl
  unfold numberEnd Piece.numeral
  dsimp only
  rw [skipped]
  generalize (c :: rest).takeWhile Char.isDigit = whole at parts ⊢
  generalize (c :: rest).dropWhile Char.isDigit = others at parts ⊢
  have here : s.At before (whole ++ others) := by rwa [parts]
  have point := here.after.peek_eq (c := '.') (by decide) (by decide)
  by_cases isPoint : others.head? = some '.'
  · obtain ⟨after, rfl⟩ : ∃ after, others = '.' :: after := by
      cases others <;> simp_all
    have here' : (s.after (whole ++ ['.'])).At (before ++ (whole ++ ['.'])) after := by
      apply At.after
      rwa [List.append_assoc]
    have next : (s.after whole).skip 1 = s.after (whole ++ ['.']) := by
      rw [skip_one (c := '.') _ (by decide) (by decide), after_after]
    have fraction : ((s.after whole).peek 1).isDigit = after.head?.any Char.isDigit := by
      rw [peek_one, next]
      exact here'.peek not_isDigit rfl
    simp only [point.mpr isPoint, true_and, fraction]
    cases taken : after.takeWhile Char.isDigit with
    | nil =>
      rw [if_neg (by simp [takeWhile_eq_nil_iff.mp taken])]
      rfl
    | cons d more =>
      have some : after.head?.any Char.isDigit = true := by
        rw [← Bool.not_eq_false, ← takeWhile_eq_nil_iff, taken]
        nofun
      rw [if_pos some, next, here'.skipWhile_eq uniform_isDigit rfl, after_after, taken,
        List.append_assoc]
      rfl
  · rw [if_neg fun both => isPoint (point.mp both.1)]
    split
    · exact absurd rfl isPoint
    · rfl

theorem number_eq (here : s.At before (c :: rest)) (begins : s.start = s.curr)
    (digit : c.isDigit = true) :
    (s.after [c]).number =
      some ((Piece.numeral (c :: rest)).reading, s.after (Piece.numeral (c :: rest)).text) := by
  obtain ⟨more, covers, tail, parts⟩ := (Piece.numeral_reads digit rest).covers
  have ending := numberEnd_eq here digit
  obtain ⟨read, same⟩ := numeral_eq (c :: rest)
  rw [same] at covers ending ⊢
  have covers : read = c :: more := covers
  have here : s.At before (read ++ tail) := by rwa [covers, List.cons_append, parts]
  simp only [number, ending, Piece.text, after_source, after_start, begins, here.slice,
    Option.bind_eq_bind, Option.bind_some, String.toList_ofList]
  rfl

theorem word_eq (here : s.At before (c :: rest)) (begins : s.start = s.curr) :
    (s.after [c]).word = some ((Piece.word (c :: rest.takeWhile Piece.isWordRest)).reading,
      s.after (Piece.word (c :: rest.takeWhile Piece.isWordRest)).text) := by
  have behind : (s.after [c]).At (before ++ [c]) rest := here.after
  have skipped : (s.after [c]).skipWhile Piece.isWordRest =
      s.after (c :: rest.takeWhile Piece.isWordRest) := by
    rw [behind.skipWhile_eq uniform_isWordRest rfl, after_after]
    rfl
  have here : s.At before
      (c :: rest.takeWhile Piece.isWordRest ++ rest.dropWhile Piece.isWordRest) := by
    rwa [List.cons_append, List.takeWhile_append_dropWhile]
  simp only [word, skipped, after_source, after_start, begins, here.slice, Option.bind_eq_bind,
    Option.bind_some, Piece.word]
  cases Keyword.ofWord? (String.ofList (c :: rest.takeWhile Piece.isWordRest)) <;> rfl

theorem symbol_eq (here : s.At before (c :: rest)) (symbol : Symbol) :
    (s.after [c]).symbol symbol =
      ((Piece.symbol symbol c rest).reading, s.after (Piece.symbol symbol c rest).text) := by
  have behind : (s.after [c]).At (before ++ [c]) rest := here.after
  have next := behind.peek_eq (c := '=') (by decide) (by decide)
  have pairs : (s.after [c]).skip 1 = s.after [c, '='] := by
    rw [skip_one (c := '=') _ (by decide) (by decide), after_after]
    rfl
  unfold Scanner.symbol Piece.symbol
  cases symbol.withEqual? with
  | none => rfl
  | some pair =>
    dsimp only
    cases rest with
    | nil =>
      rw [if_neg (by simp [next])]
      rfl
    | cons d tail =>
      by_cases isEqual : d = '='
      · subst isEqual
        rw [if_pos (next.mpr rfl), pairs]
        rfl
      · rw [if_neg (by simpa [next] using isEqual)]
        simp [isEqual, Piece.reading, Piece.text]

theorem unexpected_eq (here : s.At before (c :: rest)) (begins : s.start = s.curr)
    (inline : c ≠ '\n') :
    (s.skip 1).unexpected = some ((Piece.unexpected c).reading, s.after [c]) := by
  have here : s.At before (c :: rest ++ []) := by rwa [List.append_nil]
  have slice := here.slice
  have size : (s.after (c :: rest)).curr = s.source.utf8ByteSize := by
    rw [here.after.curr, length_bytesOf, ← List.append_nil (before ++ c :: rest),
      ← here.after.parts]
    rw [String.ofList_toList]
    rfl
  rw [size] at slice
  have lines : [c].count '\n' = 0 := by simp [inline]
  have bytes : (bytesOf [c]).length = c.utf8Size := by simp [bytesOf]
  simp only [unexpected, skip, slice, Option.bind_eq_bind, Option.bind_some, String.toList_ofList,
    after, lines, bytes, begins]
  rfl

/-- A character of more than one byte is none that the scanner looks for. -/
theorem unexpected_of_wide {d : Char} (wide : 128 ≤ d.toNat) :
    d ≠ '\n' ∧ Piece.isSpace d = false ∧ d ≠ '"' ∧ d ≠ '/' ∧ d.isDigit = false ∧
      Piece.isWordStart d = false ∧ Symbol.ofChar? d = none := by
  have other : ∀ c : Char, c.toNat < 128 → d ≠ c := by
    rintro c narrow rfl
    omega
  have notWord : Piece.isWordStart d = false := by
    rw [← Bool.not_eq_true, isWordStart_iff]
    omega
  have notSymbol : Symbol.ofChar? d = none := by
    cases found : Symbol.ofChar? d with
    | none => rfl
    | some s =>
      simp only [Symbol.ofChar?] at found
      split at found <;> contradiction
  refine ⟨other _ (by decide), ?_, other _ (by decide), other _ (by decide), not_isDigit d wide,
    notWord, notSymbol⟩
  simp [Piece.isSpace, other]

/-- The scanner reads the piece that the text ahead begins with. -/
theorem piece_eq (here : s.At before (c :: rest)) (begins : s.start = s.curr) :
    s.piece = some ((Piece.cut c rest).reading, s.after (Piece.cut c rest).text) := by
  have bytes := here.ahead
  by_cases size : c.toNat < 128
  · obtain ⟨b, encoded, same⟩ := encode_narrow size
    rw [bytesOf_cons, encoded, List.singleton_append] at bytes
    have behind : (s.after [c]).At (before ++ [c]) rest := here.after
    simp only [piece, bytes, same]
    unfold Piece.cut
    by_cases newline : c = '\n'
    · subst newline
      rfl
    · have slash := behind.peek_eq (c := '/') (by decide) (by decide)
      simp only [if_neg newline, skip_one s size newline, slash]
      split
      · rfl
      · split
        · next isQuote =>
          subst isQuote
          exact string_eq here begins
        · split
          · rw [behind.skipWhile_eq (uniform_ne (by decide)) rfl, after_after]
            rfl
          · split
            · next digit => exact number_eq here begins digit
            · split
              · exact word_eq here begins
              · cases Symbol.ofChar? c with
                | some symbol => exact congrArg some (symbol_eq here symbol)
                | none =>
                  have unexpected := unexpected_eq here begins newline
                  rwa [skip_one s size newline] at unexpected
  · have wide := Nat.le_of_not_lt size
    obtain ⟨b, more, encoded, all⟩ := encode_wide wide
    have wide' : 128 ≤ (Char.ofUInt8 b).toNat := all b List.mem_cons_self
    rw [bytesOf_cons, encoded, List.cons_append] at bytes
    have unexpected := unexpected_eq here begins (unexpected_of_wide wide).1
    simpa [piece, bytes, unexpected_of_wide wide', Piece.cut, unexpected_of_wide wide, Piece.text]
      using unexpected

/-- The scanner behind the next piece. -/
def behind (s : Scanner) (piece : Piece) : Scanner := { s.after piece.text with start := s.curr }

theorem At.behind {more tail : List Char} (here : s.At before (c :: rest))
    (covers : (Piece.cut c rest).text = c :: more) (parts : more ++ tail = rest) :
    (s.behind (Piece.cut c rest)).At (before ++ (Piece.cut c rest).text) tail := by
  have whole : s.At before ((Piece.cut c rest).text ++ tail) := by
    rwa [covers, List.cons_append, parts]
  exact ⟨whole.after.parts, whole.after.curr⟩

/-- A step reads one piece and makes of it what the piece gives. -/
theorem step_eq (here : s.At before (c :: rest)) :
    s.step = some ((Piece.cut c rest).item? (s.line + (Piece.cut c rest).newlines),
      s.behind (Piece.cut c rest)) := by
  obtain ⟨more, covers, tail, parts⟩ := (Piece.cut_reads c rest).covers
  have here' : { s with start := s.curr }.At before (c :: rest) := ⟨here.parts, here.curr⟩
  have read := piece_eq here' rfl
  have whole : { s with start := s.curr }.At before ((Piece.cut c rest).text ++ tail) := by
    rwa [covers, List.cons_append, parts]
  have slice := whole.slice
  simp only [step, read, Option.bind_eq_bind, Option.bind_some]
  cases kind : Piece.cut c rest with
  | blank _ | comment _ | unexpected _ | unterminated _ => rfl
  | token kind text =>
    rw [kind] at slice
    have slice : slice? (after { s with start := s.curr } text).source
        (after { s with start := s.curr } text).start
        (after { s with start := s.curr } text).curr = some (String.ofList text) := slice
    simp only [Piece.reading, Piece.text, slice, Option.bind_some]
    rfl

end Scanner
end ScopeScript
