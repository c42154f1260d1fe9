import Mathlib.Data.List.TakeWhile
import ScopeScript.Proofs.Number.Shortest
import ScopeScript.Tree.Printer

/-! Number texts tell their numbers. A text of digits with a point in it stands for a decimal; the
text of a finite number stands for one that rounds to the number, whether its digits are written out
in full or are the shortest. So no two finite numbers share a text. -/
namespace ScopeScript

namespace Number

theorem digitsValue_append_replicate_zero (digits : List Char) (count : Nat) :
    digitsValue (digits ++ List.replicate count '0') = digitsValue digits * 10 ^ count := by
  unfold digitsValue
  rw [← Nat.ofDigitChars_eq_foldl, ← Nat.ofDigitChars_eq_foldl, Nat.ofDigitChars_append,
    Nat.ofDigitChars_replicate_zero, Nat.mul_comm]

theorem digitsValue_replicate_zero_append (digits : List Char) (count : Nat) :
    digitsValue (List.replicate count '0' ++ digits) = digitsValue digits := by
  unfold digitsValue
  rw [← Nat.ofDigitChars_eq_foldl, ← Nat.ofDigitChars_eq_foldl, Nat.ofDigitChars_append,
    Nat.ofDigitChars_replicate_zero, Nat.mul_zero]

theorem digitsValue_toDigits (n : Nat) : digitsValue (Nat.toDigits 10 n) = n := by
  unfold digitsValue
  rw [← Nat.ofDigitChars_eq_foldl, Nat.ofDigitChars_ten_toDigits]

/-- The decimal that a text of digits and at most one point stands for. -/
def decimalOf (text : List Char) : ℚ :=
  let whole := text.takeWhile Char.isDigit
  let fraction := (text.dropWhile Char.isDigit).tail
  digitsValue (whole ++ fraction) / 10 ^ fraction.length

theorem decimalOf_whole {digits : List Char} (all : ∀ c ∈ digits, c.isDigit) :
    decimalOf digits = digitsValue digits := by
  unfold decimalOf
  rw [List.takeWhile_eq_self_iff.mpr all, List.dropWhile_eq_nil_iff.mpr all]
  simp

theorem decimalOf_point {whole : List Char} (all : ∀ c ∈ whole, c.isDigit) (fraction : List Char) :
    decimalOf (whole ++ '.' :: fraction) = digitsValue (whole ++ fraction) / 10 ^ fraction.length := by
  unfold decimalOf
  rw [List.takeWhile_append_of_pos all, List.dropWhile_append_of_pos all,
    List.takeWhile_cons_of_neg (by decide), List.dropWhile_cons_of_neg (by decide), List.append_nil,
    List.tail_cons]

/-- A digit first, and only digits and points after it. -/
def Numeral (text : List Char) : Prop :=
  (∃ c rest, text = c :: rest ∧ c.isDigit) ∧ ∀ c ∈ text, c.isDigit ∨ c = '.'

theorem Numeral.of_digits {digits : List Char} (some : digits ≠ [])
    (all : ∀ c ∈ digits, c.isDigit) : Numeral digits := by
  constructor
  · obtain ⟨c, rest, rfl⟩ := List.exists_cons_of_ne_nil some
    exact ⟨c, rest, rfl, all c List.mem_cons_self⟩
  · exact fun c mem => .inl (all c mem)

theorem Numeral.point {whole fraction : List Char} (some : whole ≠ [])
    (all : ∀ c ∈ whole, c.isDigit) (rest : ∀ c ∈ fraction, c.isDigit) :
    Numeral (whole ++ '.' :: fraction) := by
  constructor
  · obtain ⟨c, others, rfl⟩ := List.exists_cons_of_ne_nil some
    exact ⟨c, _, List.cons_append, all c List.mem_cons_self⟩
  · intro c mem
    rcases List.mem_append.mp mem with mem | mem
    · exact .inl (all c mem)
    · rcases List.mem_cons.mp mem with point | mem
      · exact .inr point
      · exact .inl (rest c mem)

theorem isDigit_of_mem_toDigits {n : Nat} {c : Char} (mem : c ∈ Nat.toDigits 10 n) : c.isDigit :=
  Nat.isDigit_of_mem_toDigits (by decide) (by decide) mem

theorem isDigit_of_mem_replicate {count : Nat} {c : Char} (mem : c ∈ List.replicate count '0') :
    c.isDigit := by
  rw [List.eq_of_mem_replicate mem]
  decide

/-- A decimal's digits in their places stand for the decimal. -/
theorem positional_spec (d : Decimal) :
    Numeral d.positional.toList ∧ decimalOf d.positional.toList = d.digits * 10 ^ d.exponent := by
  unfold Decimal.positional
  dsimp only
  split
  · next whole =>
    rw [String.toList_ofList]
    have all : ∀ c ∈ Nat.toDigits 10 d.digits ++ List.replicate d.exponent.toNat '0', c.isDigit := by
      intro c mem
      rcases List.mem_append.mp mem with mem | mem
      · exact isDigit_of_mem_toDigits mem
      · exact isDigit_of_mem_replicate mem
    constructor
    · exact .of_digits (List.append_ne_nil_of_left_ne_nil Nat.toDigits_ne_nil _) all
    · rw [decimalOf_whole all, digitsValue_append_replicate_zero, digitsValue_toDigits, Nat.cast_mul,
        Nat.cast_pow, ← zpow_natCast, Int.toNat_of_nonneg whole]
      rfl
  · next fraction =>
    generalize count : (-d.exponent).toNat = places
    have exponent : d.exponent = -places := by omega
    generalize shown : List.replicate (places + 1 - (Nat.toDigits 10 d.digits).length) '0' ++
      Nat.toDigits 10 d.digits = padded
    have all : ∀ c ∈ padded, c.isDigit := by
      rw [← shown]
      intro c mem
      rcases List.mem_append.mp mem with mem | mem
      · exact isDigit_of_mem_replicate mem
      · exact isDigit_of_mem_toDigits mem
    have long : places < padded.length := by
      rw [← shown, List.length_append, List.length_replicate]
      omega
    rw [String.toList_ofList]
    have taken : ∀ c ∈ padded.take (padded.length - places), c.isDigit :=
      fun c mem => all c (List.mem_of_mem_take mem)
    constructor
    · refine .point ?_ taken fun c mem => all c (List.mem_of_mem_drop mem)
      rw [← List.length_pos_iff, List.length_take]
      omega
    · rw [decimalOf_point taken, List.take_append_drop, List.length_drop, ← shown,
        digitsValue_replicate_zero_append, digitsValue_toDigits, shown, exponent, zpow_neg,
        zpow_natCast, div_eq_mul_inv]
      congr
      omega

/-- A whole number with one decimal place stands for itself. -/
theorem oneDecimal_spec (n : Nat) :
    Numeral (toString n ++ ".0").toList ∧ decimalOf (toString n ++ ".0").toList = n := by
  have digits : (toString n ++ ".0").toList = Nat.toDigits 10 n ++ '.' :: ['0'] := by
    rw [String.toList_append, Nat.toString_eq_ofList_toDigits, String.toList_ofList]
    rfl
  rw [digits]
  constructor
  · exact .point Nat.toDigits_ne_nil (fun c => isDigit_of_mem_toDigits) (by simp)
  · rw [decimalOf_point fun c => isDigit_of_mem_toDigits]
    have := digitsValue_append_replicate_zero (Nat.toDigits 10 n) 1
    rw [List.replicate_one] at this
    rw [this, digitsValue_toDigits]
    simp

/-! The bits of a float. -/

/-- Whether a float is neither infinite nor without a value. -/
def Finite (x : Float) : Prop := ∃ negative b, parts x = .finite negative b

instance (x : Float) : Decidable (Finite x) :=
  match shown : parts x with
  | .finite negative b => .isTrue ⟨negative, b, shown⟩
  | .infinite _ => .isFalse fun ⟨_, _, shown'⟩ => by rw [shown] at shown'; cases shown'
  | .notANumber => .isFalse fun ⟨_, _, shown'⟩ => by rw [shown] at shown'; cases shown'

theorem toBits_injective {x y : Float} (same : x.toBits = y.toBits) : x = y := by
  obtain ⟨x, valid⟩ := x
  obtain ⟨y, valid'⟩ := y
  cases same
  rfl

/-- Sign, exponent and fraction make up the bits of a finite number. -/
theorem parts_eq_finite {x : Float} {negative : Bool} {b : Binary}
    (shown : parts x = .finite negative b) :
    b.Normal ∧ b.exponent ≤ 971 ∧
      x.toBits.toNat = (if negative then 2 ^ 63 else 0) +
        ((b.exponent - Binary.leastExponent).toNat * 2 ^ 52 + b.mantissa) := by
  have small : x.toBits.toNat < 2 ^ 64 := x.toBits.toNat_lt
  unfold parts at shown
  dsimp only at shown
  generalize x.toBits.toNat = bits at *
  have lead : Binary.leadingMantissa = 2 ^ 52 := rfl
  have least : Binary.leastExponent = -1074 := rfl
  simp only [Nat.pow_eq] at shown
  split at shown
  · split at shown <;> cases shown
  · split at shown
    · cases shown
      refine ⟨⟨?_, ?_, ?_⟩, ?_, ?_⟩ <;> simp only [decide_eq_true_eq] <;> try split
      all_goals omega
    · cases shown
      refine ⟨⟨?_, ?_, ?_⟩, ?_, ?_⟩ <;> simp only [decide_eq_true_eq] <;> try split
      all_goals omega

/-- The text of a finite number is a sign and a numeral that rounds to its magnitude. -/
theorem numberText_spec {x : Float} {negative : Bool} {b : Binary}
    (shown : parts x = .finite negative b) :
    ∃ body, (Literal.numberText x).toList = (sign negative).toList ++ body ∧ Numeral body ∧
      b.Holds (decimalOf body) := by
  obtain ⟨normal, most, -⟩ := parts_eq_finite shown
  unfold Literal.numberText whole? plain
  rw [shown]
  dsimp only
  by_cases whole : b.mantissa % Nat.pow 2 (-b.exponent).toNat = 0
  · rw [if_pos whole]
    dsimp only
    obtain ⟨numeral, value⟩ := oneDecimal_spec
      (b.mantissa / Nat.pow 2 (-b.exponent).toNat * Nat.pow 2 b.exponent.toNat)
    refine ⟨_, ?_, numeral, ?_⟩
    · rw [String.append_assoc, String.toList_append]
    · rw [value, Binary.whole_value whole]
      exact b.holds_self
  · have nonzero : b.mantissa ≠ 0 := by
      intro zero
      rw [zero, Nat.zero_mod] at whole
      exact whole rfl
    rw [if_neg whole, if_neg nonzero, String.toList_append]
    obtain ⟨numeral, value⟩ := positional_spec b.shortest
    refine ⟨_, rfl, numeral, ?_⟩
    rw [value]
    exact Binary.shortest_holds normal most (Nat.pos_of_ne_zero nonzero)

theorem Numeral.head?_ne {body : List Char} (numeral : Numeral body) : body.head? ≠ some '-' := by
  obtain ⟨⟨c, rest, rfl, digit⟩, -⟩ := numeral
  rintro ⟨⟩
  contradiction

/-- A sign and the numeral behind it can be told from the text. -/
theorem sign_append_inj {negative negative' : Bool} {body body' : List Char}
    (numeral : Numeral body) (numeral' : Numeral body')
    (same : (sign negative).toList ++ body = (sign negative').toList ++ body') :
    negative = negative' ∧ body = body' := by
  cases negative <;> cases negative'
  · exact ⟨rfl, same⟩
  · exact absurd (congrArg List.head? same) numeral.head?_ne
  · exact absurd (congrArg List.head? same).symm numeral'.head?_ne
  · exact ⟨rfl, List.tail_eq_of_cons_eq same⟩

/-- No two finite numbers have the same text. -/
theorem numberText_injective {x y : Float} (finite : Finite x) (finite' : Finite y)
    (same : Literal.numberText x = Literal.numberText y) : x = y := by
  obtain ⟨negative, b, shown⟩ := finite
  obtain ⟨negative', b', shown'⟩ := finite'
  obtain ⟨body, text, numeral, holds⟩ := numberText_spec shown
  obtain ⟨body', text', numeral', holds'⟩ := numberText_spec shown'
  rw [same, text'] at text
  obtain ⟨rfl, rfl⟩ := sign_append_inj numeral' numeral text
  obtain ⟨normal, -, bits⟩ := parts_eq_finite shown
  obtain ⟨normal', -, bits'⟩ := parts_eq_finite shown'
  obtain rfl := holds.unique normal normal' holds'
  exact toBits_injective (UInt64.toNat_inj.mp (bits.trans bits'.symm))

end Number
end ScopeScript
