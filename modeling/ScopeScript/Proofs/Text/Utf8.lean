import Mathlib.Algebra.Group.Nat.Defs
import ScopeScript.Proofs.Token.Scanner
import ScopeScript.Text.Utf8

/-! Reading one character. The first byte says how many follow, and each of those holds six bits of
the character's number. The bytes read so far stand for all characters that begin with them, and a
byte is refused when none of these goes on with it. -/
namespace ScopeScript.Utf8

open String (utf8EncodeChar)

/-! The bytes of a character. -/

/-- The byte that has `n` more behind it in the character with number `v`. -/
def trailByte (n v : Nat) : UInt8 := .ofNat (v / 64 ^ n % 64 + 0x80)

/-- The last `n` bytes of the character with number `v`. -/
def trail : (n v : Nat) → List UInt8
  | 0, _ => []
  | n + 1, v => trailByte n v :: trail n v

/-- The first byte of the character with number `v` is `b`, and `n` more follow. -/
inductive Leads (v b : Nat) : (n : Nat) → Prop where
  | alone : v < 0x80 → b = v → Leads v b 0
  | one : 0x80 ≤ v → v < 0x800 → b = v / 64 + 0xC0 → Leads v b 1
  | two : 0x800 ≤ v → v < 0x10000 → b = v / 64 ^ 2 + 0xE0 → Leads v b 2
  | three : 0x10000 ≤ v → v < 0x110000 → b = v / 64 ^ 3 + 0xF0 → Leads v b 3

theorem toNat_trailByte (n v : Nat) : (trailByte n v).toNat = v / 64 ^ n % 64 + 0x80 := by
  rw [trailByte, UInt8.toNat_ofNat']
  omega

theorem isValidChar_toNat (c : Char) : c.toNat.isValidChar := c.valid

theorem toNat_ofNat {v : Nat} (valid : v.isValidChar) : (Char.ofNat v).toNat = v := by
  rw [Char.ofNat, dif_pos valid]
  rfl

theorem Leads.unique {v b b' n n' : Nat} (leads : Leads v b n) (leads' : Leads v b' n') :
    b = b' ∧ n = n' := by
  cases leads <;> cases leads' <;> omega

theorem exists_leads (c : Char) :
    ∃ n b, Leads c.toNat b.toNat n ∧ utf8EncodeChar c = b :: trail n c.toNat := by
  have valid := isValidChar_toNat c
  have value : c.val.toNat = c.toNat := rfl
  simp only [utf8EncodeChar, value]
  generalize c.toNat = v at valid
  split
  · refine ⟨0, .ofNat v, .alone (by omega) ?_, rfl⟩
    rw [UInt8.toNat_ofNat']
    omega
  · split
    · refine ⟨1, .ofNat (v / 64 % 32 + 0xC0), .one (by omega) (by omega) ?_, ?_⟩
      · rw [UInt8.toNat_ofNat']
        omega
      · simp [trail, trailByte]
    · split
      · refine ⟨2, .ofNat (v / 4096 % 16 + 0xE0), .two (by omega) (by omega) ?_, ?_⟩
        · rw [UInt8.toNat_ofNat']
          omega
        · simp [trail, trailByte]
      · refine ⟨3, .ofNat (v / 262144 % 8 + 0xF0), .three (by omega) (by omega) ?_, ?_⟩
        · rw [UInt8.toNat_ofNat']
          omega
        · simp [trail, trailByte]

/-- A character is written as its first byte and its trail. -/
theorem encode_eq_cons {c : Char} {b : UInt8} {rest : List UInt8} :
    utf8EncodeChar c = b :: rest ↔
      ∃ n, Leads c.toNat b.toNat n ∧ rest = trail n c.toNat := by
  obtain ⟨n, first, leads, written⟩ := exists_leads c
  rw [written, List.cons.injEq]
  constructor
  · rintro ⟨rfl, rfl⟩
    exact ⟨n, leads, rfl⟩
  · rintro ⟨n', leads', rfl⟩
    obtain ⟨same, rfl⟩ := leads.unique leads'
    exact ⟨UInt8.toNat_inj.mp same, rfl⟩

/-! Characters that have been begun. -/

/-- A character begun may turn out to be the one with number `v`. -/
structure Begun.Admits (s : Begun) (v : Nat) : Prop where
  value : v / 64 ^ s.owed = s.value
  low : s.low ≤ (trailByte (s.owed - 1) v).toNat
  high : (trailByte (s.owed - 1) v).toNat ≤ s.high

theorem Begun.admits_iff {s : Begun} {v : Nat} :
    s.Admits v ↔ v / 64 ^ s.owed = s.value ∧ s.low ≤ v / 64 ^ (s.owed - 1) % 64 + 0x80 ∧
      v / 64 ^ (s.owed - 1) % 64 + 0x80 ≤ s.high := by
  rw [← toNat_trailByte]
  exact ⟨fun admits => ⟨admits.value, admits.low, admits.high⟩, fun ⟨value, low, high⟩ =>
    ⟨value, low, high⟩⟩

/-- After `seen` has been read, the characters that begin with it are those that `s` admits. -/
structure Begun.After (s : Begun) (seen : List UInt8) : Prop where
  length : s.length = seen.length
  range : 0x80 ≤ s.low ∧ s.low ≤ s.high ∧ s.high ≤ 0xBF
  valid : ∀ v, s.Admits v → v.isValidChar
  begins : ∀ (c : Char) (rest : List UInt8),
    utf8EncodeChar c = seen ++ rest ↔ s.Admits c.toNat ∧ rest = trail s.owed c.toNat

section Opening
variable {b : UInt8}

/-- The characters with this first byte. For some first bytes the range of the second one leaves out
numbers that take fewer bytes, numbers of no character, and numbers past the last one. -/
theorem opening_leads {s : Begun} (opens : opening b = .begun s) (v n : Nat) :
    Leads v b.toNat n ∧ v.isValidChar ↔ s.Admits v ∧ n = s.owed := by
  rw [Begun.admits_iff]
  revert opens
  fun_cases opening b
  all_goals simp only [Opening.begun.injEq, reduceCtorEq, false_imp_iff]
  all_goals
    rintro rfl
    simp only [Nat.reducePow, Nat.reduceSub, Nat.div_one]
    constructor
    · rintro ⟨⟨⟩, valid⟩ <;> omega
    · rintro ⟨admits, rfl⟩
      refine ⟨?_, by omega⟩
      constructor <;> omega

theorem opening_fields {s : Begun} (opens : opening b = .begun s) :
    s.length = 1 ∧ 0 < s.owed ∧ 0x80 ≤ s.low ∧ s.low ≤ s.high ∧ s.high ≤ 0xBF := by
  revert opens
  fun_cases opening b
  all_goals simp only [Opening.begun.injEq, reduceCtorEq, false_imp_iff]
  all_goals
    rintro rfl
    simp

theorem opening_begun {s : Begun} (opens : opening b = .begun s) : s.After [b] := by
  have leads := opening_leads opens
  obtain ⟨length, -, range⟩ := opening_fields opens
  refine ⟨length, range, fun v admits => ((leads v _).mpr ⟨admits, rfl⟩).2, fun c rest => ?_⟩
  rw [List.singleton_append, encode_eq_cons]
  constructor
  · rintro ⟨n, led, rfl⟩
    obtain ⟨admits, rfl⟩ := (leads c.toNat n).mp ⟨led, isValidChar_toNat c⟩
    exact ⟨admits, rfl⟩
  · rintro ⟨admits, rfl⟩
    exact ⟨s.owed, ((leads c.toNat _).mpr ⟨admits, rfl⟩).1, rfl⟩

/-- A byte that is a character of its own. -/
theorem opening_ascii {c : Char} (opens : opening b = .ascii c) : utf8EncodeChar c = [b] := by
  refine encode_eq_cons.mpr ⟨0, ?_, rfl⟩
  revert opens
  fun_cases opening b
  all_goals simp only [Opening.ascii.injEq, reduceCtorEq, false_imp_iff]
  rintro rfl
  rw [toNat_ofNat (by omega)]
  exact .alone ‹_› rfl

/-- A byte that no character begins with. -/
theorem opening_refused (opens : opening b = .refused) (c : Char) (rest : List UInt8) :
    utf8EncodeChar c ≠ b :: rest := by
  have valid := isValidChar_toNat c
  intro written
  obtain ⟨n, leads, -⟩ := encode_eq_cons.mp written
  revert opens
  fun_cases opening b
  all_goals simp only [reduceCtorEq, false_imp_iff]
  all_goals cases leads <;> omega

end Opening

/-- The beginning of a character that breaks off before the end of it. -/
def Unfinished (bytes : List UInt8) : Prop :=
  ∃ c : Char, bytes <+: utf8EncodeChar c ∧ bytes ≠ utf8EncodeChar c

theorem Unfinished.of_append {c : Char} {bytes rest : List UInt8}
    (written : utf8EncodeChar c = bytes ++ rest) (more : rest ≠ []) : Unfinished bytes := by
  refine ⟨c, ⟨rest, written.symm⟩, ?_⟩
  rw [written]
  simpa using more

namespace Begun
variable {s t : Begun} {seen : List UInt8} {b : UInt8}

theorem next?_eq_none (refused : s.next? b = none) : ¬ (s.low ≤ b.toNat ∧ b.toNat ≤ s.high) := by
  intro fits
  rw [next?, if_pos fits] at refused
  contradiction

theorem next?_eq_some (next : s.next? b = some t) :
    (s.low ≤ b.toNat ∧ b.toNat ≤ s.high) ∧
      t = ⟨s.value * 64 + (b.toNat - 0x80), s.length + 1, s.owed - 1, 0x80, 0xBF⟩ := by
  rw [next?] at next
  split at next
  · exact ⟨‹_›, (Option.some.inj next).symm⟩
  · contradiction

theorem div_pow_succ (v k : Nat) : v / 64 ^ (k + 1) = v / 64 ^ k / 64 := by
  rw [Nat.pow_succ, Nat.div_div_eq_div_mul]

/-- Behind the second byte, every byte may hold any six bits. -/
theorem admits_next (next : s.next? b = some t) (v : Nat) :
    t.Admits v ↔ v / 64 ^ t.owed = t.value := by
  obtain ⟨-, rfl⟩ := next?_eq_some next
  rw [admits_iff]
  dsimp only
  omega

/-- Of the characters that were possible, the next byte leaves those that go on with it. -/
theorem admits_next_iff (after : s.After seen) (owed : 0 < s.owed) (next : s.next? b = some t)
    (v : Nat) : t.Admits v ↔ s.Admits v ∧ b = trailByte t.owed v := by
  rw [admits_next next, admits_iff, ← UInt8.toNat_inj, toNat_trailByte]
  obtain ⟨⟨low, high⟩, rfl⟩ := next?_eq_some next
  obtain ⟨k, count⟩ : ∃ k, s.owed = k + 1 := ⟨s.owed - 1, by omega⟩
  have range := after.range
  simp only [count, div_pow_succ, Nat.add_sub_cancel]
  omega

theorem After.next (after : s.After seen) (owed : 0 < s.owed) (next : s.next? b = some t) :
    t.After (seen ++ [b]) := by
  have admits := admits_next_iff after owed next
  obtain ⟨-, same⟩ := next?_eq_some next
  have count : s.owed = t.owed + 1 := by
    rw [same]
    exact (Nat.sub_add_cancel owed).symm
  constructor
  · rw [same, List.length_append, ← after.length]
    rfl
  · simp [same]
  · exact fun v admitted => after.valid v ((admits v).mp admitted).1
  · intro c rest
    rw [List.append_assoc, List.singleton_append, after.begins, admits, count, trail,
      List.cons.injEq, and_assoc]

/-- The last byte of a character. -/
theorem After.finished (after : s.After seen) (owed : 0 < s.owed) (next : s.next? b = some t)
    (last : t.owed = 0) : utf8EncodeChar (Char.ofNat t.value) = seen ++ [b] := by
  have after' := after.next owed next
  have admits : t.Admits t.value := by
    rw [admits_next next, last, Nat.pow_zero, Nat.div_one]
  have number := toNat_ofNat (after'.valid _ admits)
  have written := (after'.begins (Char.ofNat t.value) []).mpr
  rw [number, last] at written
  simpa using written ⟨admits, rfl⟩

/-- A byte that no character goes on with. -/
theorem After.refused (after : s.After seen) (owed : 0 < s.owed) (refused : s.next? b = none)
    (c : Char) (rest : List UInt8) : utf8EncodeChar c ≠ seen ++ b :: rest := by
  intro written
  obtain ⟨admits, tail⟩ := (after.begins c _).mp written
  obtain ⟨k, count⟩ : ∃ k, s.owed = k + 1 := ⟨s.owed - 1, by omega⟩
  have low := admits.low
  have high := admits.high
  rw [count, trail, List.cons.injEq] at tail
  rw [count, Nat.add_sub_cancel, ← tail.1] at low high
  exact next?_eq_none refused ⟨low, high⟩

theorem After.unfinished (after : s.After seen) (owed : 0 < s.owed) : Unfinished seen := by
  obtain ⟨k, count⟩ : ∃ k, s.owed = k + 1 := ⟨s.owed - 1, by omega⟩
  obtain ⟨low, ordered, high⟩ := after.range
  -- the least of the bytes that may come next, and nothing but zeros behind it
  obtain ⟨v, digits⟩ : ∃ v, v / 64 ^ k = s.value * 64 + (s.low - 0x80) :=
    ⟨(s.value * 64 + (s.low - 0x80)) * 64 ^ k, Nat.mul_div_cancel _ (Nat.pow_pos (by decide))⟩
  have admits : s.Admits v := by
    rw [admits_iff, count, Nat.add_sub_cancel, div_pow_succ, digits]
    omega
  have number := toNat_ofNat (after.valid v admits)
  have written := (after.begins (Char.ofNat v) _).mpr ⟨by rwa [number], rfl⟩
  refine .of_append written ?_
  rw [count, trail]
  exact List.cons_ne_nil _ _

end Begun

/-! One character in front of others. -/

/-- What is said of the bytes behind the first `index` when they do not begin with a character. -/
inductive Broken (index : Nat) : List UInt8 → Malformed → Prop where
  | incomplete {bytes : List UInt8} : bytes ≠ [] → Unfinished bytes →
      Broken index bytes (.incomplete index)
  | invalid {seen rest : List UInt8} {b : UInt8} : Unfinished seen →
      (∀ c more, utf8EncodeChar c ≠ seen ++ b :: more) →
      Broken index (seen ++ b :: rest) (.invalid index (max 1 seen.length))

/-- A reading takes one character and goes on behind it, or breaks off in front. -/
def Steps (index : Nat) (bytes : List UInt8) (reading : Reading) : Prop :=
  (∃ c rest, bytes = utf8EncodeChar c ++ rest ∧
    reading = (readFrom (index + (utf8EncodeChar c).length) none rest).before c) ∨
  ∃ e, reading = ⟨[], some e⟩ ∧ Broken index bytes e

theorem readFrom_begun {s : Begun} {seen : List UInt8} (after : s.After seen) (owed : 0 < s.owed)
    (begun : seen ≠ []) (index : Nat) (bytes : List UInt8) :
    Steps index (seen ++ bytes) (readFrom index (some s) bytes) := by
  induction bytes generalizing s seen with
  | nil =>
    rw [List.append_nil]
    exact .inr ⟨_, rfl, .incomplete begun (after.unfinished owed)⟩
  | cons b rest ih =>
    rw [readFrom]
    cases next : s.next? b with
    | none =>
      have length : s.length = max 1 seen.length := by
        have := List.length_pos_iff.mpr begun
        rw [after.length]
        omega
      refine .inr ⟨_, rfl, ?_⟩
      rw [length]
      exact .invalid (after.unfinished owed) (after.refused owed next)
    | some t =>
      have after' := after.next owed next
      have whole : seen ++ b :: rest = (seen ++ [b]) ++ rest := by simp
      dsimp only
      split
      · next last =>
        have written := after.finished owed next last
        refine .inl ⟨Char.ofNat t.value, rest, ?_, ?_⟩
        · rw [written, whole]
        · rw [written, ← after'.length]
      · next more =>
        rw [whole]
        exact ih after' (Nat.pos_of_ne_zero more) (by simp)

theorem readFrom_cons (index : Nat) (b : UInt8) (rest : List UInt8) :
    Steps index (b :: rest) (readFrom index none (b :: rest)) := by
  rw [readFrom]
  cases opens : opening b with
  | ascii c =>
    have written := opening_ascii opens
    refine .inl ⟨c, rest, ?_, ?_⟩
    · rw [written, List.singleton_append]
    · rw [written]
      rfl
  | begun s =>
    obtain ⟨-, owed, -⟩ := opening_fields opens
    exact readFrom_begun (opening_begun opens) owed (List.cons_ne_nil _ _) index rest
  | refused =>
    have none : Unfinished [] := .of_append (c := 'a') rfl (by decide)
    exact .inr ⟨_, rfl, @Broken.invalid index [] rest b none (opening_refused opens)⟩

end ScopeScript.Utf8
