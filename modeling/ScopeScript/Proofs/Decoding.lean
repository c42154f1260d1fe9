import ScopeScript.CommandLine
import ScopeScript.Proofs.Text.Utf8

/-! Decoding a source. The bytes of a text decode to that text, and no other bytes decode. Of bytes
that do not, the whole characters in front are counted, and the error tells whether a character is
cut off by the end of the bytes or by a byte that cannot go on with it. -/
namespace ScopeScript.Utf8

open String (utf8EncodeChar)

/-! Characters at the front of bytes. -/

/-- No character begins with another one. -/
theorem encode_append_inj {c d : Char} {rest rest' : List UInt8}
    (same : utf8EncodeChar c ++ rest = utf8EncodeChar d ++ rest') : c = d ∧ rest = rest' := by
  have first : some c = some d := by
    calc some c
      _ = (utf8EncodeChar c ++ rest).toByteArray.utf8DecodeChar? 0 := by
        rw [List.toByteArray_append, ByteArray.utf8DecodeChar?_utf8EncodeChar_append]
      _ = some d := by
        rw [same, List.toByteArray_append, ByteArray.utf8DecodeChar?_utf8EncodeChar_append]
  obtain rfl := Option.some.inj first
  exact ⟨rfl, List.append_cancel_left same⟩

theorem Unfinished.stuck {bytes : List UInt8} (unfinished : Unfinished bytes) (c : Char) :
    ¬ utf8EncodeChar c <+: bytes := by
  rintro ⟨more, rfl⟩
  obtain ⟨d, ⟨rest, within⟩, proper⟩ := unfinished
  rw [List.append_assoc, ← List.append_nil (utf8EncodeChar d)] at within
  obtain ⟨rfl, none⟩ := encode_append_inj within
  rw [List.append_eq_nil_iff] at none
  exact proper (by rw [none.1, List.append_nil])

/-- A front of some bytes ends before a certain byte or reaches over it. -/
theorem prefix_cases {front seen rest : List UInt8} {b : UInt8}
    (within : front <+: seen ++ b :: rest) :
    front <+: seen ∨ ∃ more, front = seen ++ b :: more := by
  rcases Nat.lt_or_ge seen.length front.length with longer | shorter
  · have beyond : seen ++ [b] <+: front := by
      refine List.prefix_of_prefix_length_le ⟨rest, ?_⟩ within ?_
      · simp
      · rw [List.length_append]
        exact longer
    obtain ⟨more, rfl⟩ := beyond
    exact .inr ⟨more, by simp⟩
  · exact .inl (List.prefix_of_prefix_length_le within (List.prefix_append _ _) shorter)

namespace Broken
variable {index : Nat} {bytes : List UInt8} {e : Malformed}

theorem stuck (broken : Broken index bytes e) (c : Char) : ¬ utf8EncodeChar c <+: bytes := by
  cases broken with
  | incomplete _ unfinished => exact unfinished.stuck c
  | invalid unfinished refused =>
    intro front
    rcases prefix_cases front with within | ⟨more, beyond⟩
    · exact unfinished.stuck c within
    · exact refused c more beyond

theorem ne_nil (broken : Broken index bytes e) : bytes ≠ [] := by
  cases broken with
  | incomplete some _ => exact some
  | invalid _ _ => simp

end Broken

/-- The characters of a text are those that its bytes begin with. -/
theorem bytesOf_prefix {other chars : List Char} {rest : List UInt8}
    (stuck : ∀ c, ¬ utf8EncodeChar c <+: rest)
    (front : bytesOf other <+: bytesOf chars ++ rest) : other <+: chars := by
  induction other generalizing chars with
  | nil => exact List.nil_prefix
  | cons c other ih =>
    rw [bytesOf_cons] at front
    cases chars with
    | nil => exact absurd ((List.prefix_append _ _).trans front) (stuck c)
    | cons d chars =>
      obtain ⟨more, parts⟩ := front
      rw [bytesOf_cons, List.append_assoc, List.append_assoc] at parts
      obtain ⟨rfl, behind⟩ := encode_append_inj parts
      exact (List.prefix_cons_inj c).mpr (ih ⟨more, behind⟩)

/-! Reading all characters. -/

/-- The whole characters at the front are read, and then there are no more bytes or the rest of them
is broken. -/
theorem readFrom_eq (index : Nat) (bytes : List UInt8) :
    ∃ chars rest, bytes = bytesOf chars ++ rest ∧
      (readFrom index none bytes = ⟨chars, none⟩ ∧ rest = [] ∨
        ∃ e, readFrom index none bytes = ⟨chars, some e⟩ ∧
          Broken (index + (bytesOf chars).length) rest e) := by
  induction length : bytes.length using Nat.strongRecOn generalizing index bytes with
  | ind n ih =>
    cases bytes with
    | nil => exact ⟨[], [], rfl, .inl ⟨rfl, rfl⟩⟩
    | cons b tail =>
      rcases readFrom_cons index b tail with ⟨c, rest, parts, reads⟩ | ⟨e, reads, broken⟩
      · have size := c.utf8Size_pos
        have shorter : rest.length < n := by
          rw [← length, parts, List.length_append, String.length_utf8EncodeChar]
          omega
        obtain ⟨chars, left, parts', ends⟩ := ih _ shorter _ rest rfl
        refine ⟨c :: chars, left, ?_, ?_⟩
        · rw [parts, parts', bytesOf_cons, List.append_assoc]
        · rw [reads, bytesOf_cons, List.length_append, ← Nat.add_assoc]
          rcases ends with ⟨read, done⟩ | ⟨e, read, broken⟩
          · exact .inl ⟨by rw [read]; rfl, done⟩
          · exact .inr ⟨e, by rw [read]; rfl, broken⟩
      · exact ⟨[], b :: tail, rfl, .inr ⟨e, reads, broken⟩⟩

/-- The bytes of a text. -/
def encoded (text : String) : List UInt8 := text.toUTF8.data.toList

theorem encoded_eq (text : String) : encoded text = bytesOf text.toList := bytesOf_toList text

theorem decode_cases (bytes : List UInt8) :
    (∃ text, decode bytes = .ok text ∧ bytes = encoded text) ∨
      ∃ text rest e, decode bytes = .error e ∧ bytes = encoded text ++ rest ∧
        Broken (encoded text).length rest e := by
  obtain ⟨chars, rest, parts, ends⟩ := readFrom_eq 0 bytes
  have written : encoded (String.ofList chars) = bytesOf chars := by
    rw [encoded_eq, String.toList_ofList]
  rw [Nat.zero_add] at ends
  rcases ends with ⟨reads, rfl⟩ | ⟨e, reads, broken⟩
  · refine .inl ⟨String.ofList chars, ?_, ?_⟩
    · rw [decode, read, reads]
    · rw [written, parts, List.append_nil]
  · refine .inr ⟨String.ofList chars, rest, e, ?_, ?_, ?_⟩
    · rw [decode, read, reads]
    · rw [written, parts]
    · rwa [written]

theorem encoded_injective {text other : String} (same : encoded text = encoded other) :
    text = other := by
  have bytes : text.toByteArray.data = other.toByteArray.data := Array.toList_inj.mp same
  exact String.toByteArray_inj.mp (ByteArray.ext bytes)

/-- A text in front of broken bytes is no more than the whole characters of them. -/
theorem Broken.most {text other : String} {index : Nat} {rest : List UInt8} {e : Malformed}
    (broken : Broken index rest e) (front : encoded other <+: encoded text ++ rest) :
    (encoded other).length ≤ (encoded text).length := by
  rw [encoded_eq, encoded_eq] at front ⊢
  obtain ⟨more, parts⟩ := bytesOf_prefix broken.stuck front
  rw [← parts, bytesOf_append, List.length_append]
  exact Nat.le_add_right _ _

/-- Bytes decode to a text if and only if they are the bytes of that text. -/
theorem decode_eq_ok {bytes : List UInt8} {text : String} :
    decode bytes = .ok text ↔ bytes = encoded text := by
  rcases decode_cases bytes with ⟨found, decodes, rfl⟩ | ⟨front, rest, e, decodes, rfl, broken⟩
  · rw [decodes, Except.ok.injEq]
    exact ⟨fun same => by rw [same], encoded_injective⟩
  · rw [decodes]
    refine ⟨nofun, fun whole => absurd ?_ broken.ne_nil⟩
    have most : (encoded text).length ≤ (encoded front).length :=
      broken.most ⟨[], by rw [whole, List.append_nil]⟩
    rw [← whole, List.length_append] at most
    exact List.length_eq_zero_iff.mp (by omega)

/-! Why bytes are no text. -/

/-- The longest front of some bytes that has a property has `n` of them. -/
structure Longest (p : List UInt8 → Prop) (bytes : List UInt8) (n : Nat) : Prop where
  holds : ∃ front, front <+: bytes ∧ p front ∧ front.length = n
  most : ∀ front, front <+: bytes → p front → front.length ≤ n

theorem Longest.unique {p : List UInt8 → Prop} {bytes : List UInt8} {m n : Nat}
    (longest : Longest p bytes m) (longest' : Longest p bytes n) : m = n := by
  obtain ⟨front, within, held, rfl⟩ := longest.holds
  obtain ⟨front', within', held', rfl⟩ := longest'.holds
  exact Nat.le_antisymm (longest'.most _ within held) (longest.most _ within' held')

def IsText (bytes : List UInt8) : Prop := ∃ text, bytes = encoded text

/-- What is to be said of bytes that are no text. `index` of them at the front are text, as many as
possible. Behind those, the bytes end inside of a character, or the first `n` of them begin a
character, again as many as possible, and the next one does not belong to it. One byte at least is
counted as wrong. -/
inductive Explains (bytes : List UInt8) : Malformed → Prop where
  | incomplete {index : Nat} : Longest IsText bytes index → Unfinished (bytes.drop index) →
      Explains bytes (.incomplete index)
  | invalid {index n : Nat} : Longest IsText bytes index → ¬ Unfinished (bytes.drop index) →
      Longest Unfinished (bytes.drop index) n → Explains bytes (.invalid index (max 1 n))

theorem Explains.unique {bytes : List UInt8} {e e' : Malformed} (explains : Explains bytes e)
    (explains' : Explains bytes e') : e = e' := by
  cases explains with
  | incomplete front unfinished =>
    cases explains' with
    | incomplete front' _ => rw [front.unique front']
    | invalid front' finished _ =>
      rw [front.unique front'] at unfinished
      contradiction
  | invalid front finished behind =>
    cases explains' with
    | incomplete front' unfinished =>
      rw [front.unique front'] at finished
      contradiction
    | invalid front' _ behind' =>
      obtain rfl := front.unique front'
      rw [behind.unique behind']

theorem Broken.explains {text : String} {rest : List UInt8} {e : Malformed}
    (broken : Broken (encoded text).length rest e) : Explains (encoded text ++ rest) e := by
  have front : Longest IsText (encoded text ++ rest) (encoded text).length := by
    refine ⟨⟨_, List.prefix_append _ _, ⟨text, rfl⟩, rfl⟩, ?_⟩
    rintro _ within ⟨other, rfl⟩
    exact broken.most within
  cases broken with
  | incomplete _ unfinished =>
    refine .incomplete front ?_
    rwa [List.drop_left]
  | invalid unfinished refused =>
    refine .invalid front ?_ ?_
    · rw [List.drop_left]
      rintro ⟨c, ⟨more, within⟩, -⟩
      rw [List.append_assoc, List.cons_append] at within
      exact refused c _ within.symm
    · rw [List.drop_left]
      refine ⟨⟨_, List.prefix_append _ _, unfinished, rfl⟩, ?_⟩
      rintro other within ⟨c, ⟨more, longer⟩, -⟩
      rcases prefix_cases within with inside | ⟨beyond, rfl⟩
      · exact inside.length_le
      · rw [List.append_assoc, List.cons_append] at longer
        exact absurd longer.symm (refused c _)

/-- Decoding is exact. It undoes encoding and encoding undoes it; of all other bytes it says, with
exit code 74, where they stop being text and why, and nothing else could be said. Every command that
is given such a file reports this and does nothing. -/
theorem decode_exact (bytes : List UInt8) :
    (∀ text, decode bytes = .ok text ↔ bytes = encoded text) ∧
    ((∀ text, bytes ≠ encoded text) → ∃ e,
      decode bytes = .error e ∧ Explains bytes e ∧ (∀ e', Explains bytes e' → e' = e) ∧
      (Diagnostic.encoding e).exitCode = 74 ∧
      ∀ limits command path, CommandLine.onFile limits command path (.contents bytes) =
        { stderr := e.message ++ "\n", code := 74 }) := by
  refine ⟨fun text => decode_eq_ok, fun other => ?_⟩
  rcases decode_cases bytes with ⟨text, -, whole⟩ | ⟨front, rest, e, decodes, rfl, broken⟩
  · exact absurd whole (other text)
  · have explains := broken.explains
    refine ⟨e, decodes, explains, fun e' explains' => explains'.unique explains, rfl, ?_⟩
    intro limits command path
    have text : CommandLine.report [.encoding e] = e.message ++ "\n" := String.empty_append
    simp only [CommandLine.onFile, decodes, text]
    rfl

/-- A letter and two of the three bytes of a currency sign, with a parenthesis in place of the
third. One byte is text, and two are the beginning of a character. -/
theorem cut_character_explained :
    let bytes : List UInt8 := [0x61, 0xE2, 0x82, 0x28]
    (∀ text, bytes ≠ encoded text) ∧ decode bytes = .error (.invalid 1 2) ∧
      Explains bytes (.invalid 1 2) := by
  intro bytes
  obtain ⟨exact, explained⟩ := decode_exact bytes
  have decodes : decode bytes = .error (.invalid 1 2) := by rfl
  have other : ∀ text, bytes ≠ encoded text := by
    intro text whole
    have same := (exact text).mpr whole
    rw [decodes] at same
    contradiction
  obtain ⟨e, decodes', explains, -⟩ := explained other
  rw [decodes] at decodes'
  cases decodes'
  exact ⟨other, decodes, explains⟩

end ScopeScript.Utf8
