import Mathlib.Algebra.Order.Field.Power
import Mathlib.Data.Rat.Cast.Order
import Mathlib.Tactic.Linarith
import Mathlib.Tactic.Positivity
import Mathlib.Tactic.Ring
import ScopeScript.Number.Text

/-! Shortest digits read back. The decimals that round to a 64-bit number form an interval around it,
and the intervals of different numbers do not meet: the end that two of them share belongs to the
one with the even mantissa. The search for the shortest digits always ends on a grid with a point in
the interval, so its answer tells the number. -/
namespace ScopeScript

namespace Binary

/-- A quarter of the last place, exactly. -/
def step (b : Binary) : ℚ := 2 ^ (b.exponent - 2)

theorem step_pos (b : Binary) : 0 < b.step := zpow_pos two_pos _

/-- The decimals that round to this number. -/
def Holds (b : Binary) (q : ℚ) : Prop :=
  if b.closed then b.low * b.step ≤ q ∧ q ≤ b.high * b.step
  else b.low * b.step < q ∧ q < b.high * b.step

theorem Holds.le {b : Binary} {q : ℚ} (holds : b.Holds q) :
    b.low * b.step ≤ q ∧ q ≤ b.high * b.step := by
  unfold Holds at holds
  split at holds
  · exact holds
  · exact ⟨holds.1.le, holds.2.le⟩

theorem Holds.closed_of_eq {b : Binary} {q : ℚ} (holds : b.Holds q)
    (atEnd : q = b.low * b.step ∨ q = b.high * b.step) : b.closed = true := by
  by_contra notClosed
  rw [Holds, if_neg notClosed] at holds
  rcases atEnd with rfl | rfl
  · exact lt_irrefl _ holds.1
  · exact lt_irrefl _ holds.2

theorem zpow_mul_pow_toNat {x : ℚ} (nonzero : x ≠ 0) (z : ℤ) :
    x ^ z * x ^ (-z).toNat = x ^ z.toNat := by
  rw [← zpow_natCast, ← zpow_natCast, ← zpow_add₀ nonzero]
  congr 1
  omega

/-- A mantissa without a fractional part, written out. -/
theorem whole_value {b : Binary} (whole : b.mantissa % Nat.pow 2 (-b.exponent).toNat = 0) :
    ((b.mantissa / Nat.pow 2 (-b.exponent).toNat * Nat.pow 2 b.exponent.toNat : Nat) : ℚ) =
      b.mantissa * 2 ^ b.exponent := by
  simp only [Nat.pow_eq] at whole ⊢
  have split : b.mantissa / 2 ^ (-b.exponent).toNat * 2 ^ (-b.exponent).toNat = b.mantissa :=
    Nat.div_mul_cancel (Nat.dvd_of_mod_eq_zero whole)
  have powers := zpow_mul_pow_toNat (x := 2) two_ne_zero b.exponent
  calc ((b.mantissa / 2 ^ (-b.exponent).toNat * 2 ^ b.exponent.toNat : Nat) : ℚ)
      = (b.mantissa / 2 ^ (-b.exponent).toNat : Nat) * 2 ^ b.exponent.toNat := by push_cast; rfl
    _ = (b.mantissa / 2 ^ (-b.exponent).toNat * 2 ^ (-b.exponent).toNat : Nat) * 2 ^ b.exponent := by
      rw [← powers]
      push_cast
      ring
    _ = b.mantissa * 2 ^ b.exponent := by rw [split]

/-- A number rounds to itself. -/
theorem holds_self (b : Binary) : b.Holds (b.mantissa * 2 ^ b.exponent) := by
  have value : (b.mantissa : ℚ) * 2 ^ b.exponent = (4 * b.mantissa : Nat) * b.step := by
    rw [step, zpow_sub₀ two_ne_zero]
    push_cast
    ring
  have above : 4 * b.mantissa < b.high := by
    unfold high
    omega
  have below : b.low ≤ 4 * b.mantissa ∧ (b.closed = false → b.low < 4 * b.mantissa) := by
    simp only [closed, beq_eq_false_iff_ne, low]
    split <;> omega
  rw [value]
  unfold Holds
  split
  · constructor <;> refine mul_le_mul_of_nonneg_right ?_ b.step_pos.le
    · exact_mod_cast below.1
    · exact_mod_cast above.le
  · next notClosed =>
    constructor <;> refine mul_lt_mul_of_pos_right ?_ b.step_pos
    · exact_mod_cast below.2 (by simpa using notClosed)
    · exact_mod_cast above

/-- Mantissa and exponent as 64-bit numbers have them. -/
structure Normal (b : Binary) : Prop where
  small : b.mantissa < 2 * leadingMantissa
  least : leastExponent ≤ b.exponent
  leading : leastExponent < b.exponent → leadingMantissa ≤ b.mantissa

theorem Normal.le_low {b : Binary} (normal : b.Normal) (above : leastExponent < b.exponent) :
    4 * leadingMantissa - 1 ≤ b.low := by
  have leading := normal.leading above
  unfold low
  split <;> omega

/-- A number's interval ends where that of a larger number begins, or before. Where they meet, one
of the mantissas is odd. -/
theorem high_le_low {b b' : Binary} (normal : b.Normal) (normal' : b'.Normal) {k : Nat}
    (above : b'.exponent = b.exponent + k) (larger : k = 0 → b.mantissa < b'.mantissa) :
    b.high ≤ b'.low * 2 ^ k ∧
      (b.high = b'.low * 2 ^ k → ¬ (b.closed = true ∧ b'.closed = true)) := by
  have lead : leadingMantissa = 4503599627370496 := rfl
  have small := normal.small
  have least := normal.least
  simp only [closed, beq_iff_eq, high]
  cases k with
  | zero =>
    have larger := larger rfl
    have leading := normal.leading
    unfold low
    split <;> rw [Nat.pow_zero, Nat.mul_one] <;> omega
  | succ k =>
    -- the larger number has a leading mantissa, so twice its lower end is out of reach
    have twice : 2 ≤ 2 ^ (k + 1) := by
      have := Nat.one_le_two_pow (n := k)
      rw [Nat.pow_succ]
      omega
    have once := normal'.le_low (by omega)
    have reach := Nat.mul_le_mul once twice
    omega

/-- No decimal rounds to a number and to a larger one. -/
theorem not_holds_of_above {b b' : Binary} (normal : b.Normal) (normal' : b'.Normal) {k : Nat}
    (above : b'.exponent = b.exponent + k) (larger : k = 0 → b.mantissa < b'.mantissa) {q : ℚ}
    (holds : b.Holds q) : ¬ b'.Holds q := by
  intro holds'
  obtain ⟨apart, odd⟩ := high_le_low normal normal' above larger
  have steps : b'.step = 2 ^ k * b.step := by
    rw [step, step, above, ← zpow_natCast, ← zpow_add₀ two_ne_zero]
    congr 1
    omega
  have apart' : b.high * b.step ≤ b'.low * b'.step := by
    rw [steps, ← mul_assoc]
    refine mul_le_mul_of_nonneg_right ?_ b.step_pos.le
    exact_mod_cast apart
  have meet : b.high * b.step = b'.low * b'.step :=
    le_antisymm apart' (holds'.le.1.trans holds.le.2)
  have same : b.high = b'.low * 2 ^ k := by
    rw [steps, ← mul_assoc] at meet
    exact_mod_cast mul_right_cancel₀ b.step_pos.ne' meet
  have here : q = b.high * b.step := le_antisymm holds.le.2 (meet ▸ holds'.le.1)
  exact odd same ⟨holds.closed_of_eq (.inr here), holds'.closed_of_eq (.inl (here.trans meet))⟩

/-- A decimal rounds to one number only. -/
theorem Holds.unique {b b' : Binary} (normal : b.Normal) (normal' : b'.Normal) {q : ℚ}
    (holds : b.Holds q) (holds' : b'.Holds q) : b = b' := by
  rcases lt_trichotomy b.exponent b'.exponent with less | same | more
  · have above : b'.exponent = b.exponent + (b'.exponent - b.exponent).toNat := by omega
    exact absurd holds' (not_holds_of_above normal normal' above (by omega) holds)
  · rcases lt_trichotomy b.mantissa b'.mantissa with less | equal | more
    · have above : b'.exponent = b.exponent + (0 : Nat) := by omega
      exact absurd holds' (not_holds_of_above normal normal' above (fun _ => less) holds)
    · cases b
      cases b'
      exact congrArg₂ Binary.mk equal same
    · have above : b.exponent = b'.exponent + (0 : Nat) := by omega
      exact absurd holds (not_holds_of_above normal' normal above (fun _ => more) holds')
  · have above : b.exponent = b'.exponent + (b.exponent - b'.exponent).toNat := by omega
    exact absurd holds (not_holds_of_above normal' normal above (by omega) holds')

/-! The search for digits. -/

/-- Quarters of the last place and points of a grid are compared exactly. -/
theorem scale_spec (b : Binary) (place : ℤ) :
    ∃ d : ℚ, 0 < d ∧ (b.scale place).unit = b.step * d ∧
      ((b.scale place).point : ℚ) = 10 ^ place * d := by
  refine ⟨2 ^ (2 - b.exponent).toNat * 10 ^ (-place).toNat, by positivity, ?_, ?_⟩
  · have halves := zpow_mul_pow_toNat two_ne_zero (b.exponent - 2)
    rw [neg_sub] at halves
    simp only [scale, quarter, step, Nat.pow_eq]
    push_cast
    rw [← halves, mul_assoc]
  · have tenths := zpow_mul_pow_toNat (x := 10) (by norm_num) place
    simp only [scale, quarter, Nat.pow_eq]
    push_cast
    rw [← tenths]
    ring

theorem reads_iff (b : Binary) (place : ℤ) (n : Nat) :
    b.reads (b.scale place) n = true ↔ b.Holds (n * 10 ^ place) := by
  obtain ⟨d, positive, unit, point⟩ := b.scale_spec place
  have below (k : Nat) :
      k * (b.scale place).unit ≤ n * (b.scale place).point ↔ k * b.step ≤ n * 10 ^ place := by
    rw [← Nat.cast_le (α := ℚ), Nat.cast_mul, Nat.cast_mul, unit, point, ← mul_assoc, ← mul_assoc,
      mul_le_mul_iff_of_pos_right positive]
  have above (k : Nat) :
      n * (b.scale place).point ≤ k * (b.scale place).unit ↔ n * 10 ^ place ≤ k * b.step := by
    rw [← Nat.cast_le (α := ℚ), Nat.cast_mul, Nat.cast_mul, unit, point, ← mul_assoc, ← mul_assoc,
      mul_le_mul_iff_of_pos_right positive]
  unfold reads Holds
  split
  · rw [Bool.and_eq_true, decide_eq_true_iff, decide_eq_true_iff, below, above]
  · rw [Bool.and_eq_true, decide_eq_true_iff, decide_eq_true_iff, ← not_le, ← not_le, below, above,
      not_le, not_le]

/-- The last point of a grid that is not above the number rounds to it, if the grid is finer than a
quarter of the last place. -/
theorem reads_floor {b : Binary} (nonzero : 0 < b.mantissa) {s : Scale} (positive : 0 < s.point)
    (fine : s.point ≤ s.unit) : b.reads s (4 * b.mantissa * s.unit / s.point) = true := by
  have below := Nat.div_mul_le_self (4 * b.mantissa * s.unit) s.point
  have next := Nat.lt_div_mul_add (a := 4 * b.mantissa * s.unit) positive
  have low : b.low * s.unit + s.unit ≤ 4 * b.mantissa * s.unit := by
    have least : b.low + 1 ≤ 4 * b.mantissa := by
      unfold low
      split <;> omega
    rw [← Nat.succ_mul]
    exact Nat.mul_le_mul_right _ least
  have high : b.high * s.unit = 4 * b.mantissa * s.unit + 2 * s.unit := by rw [high, Nat.add_mul]
  unfold reads
  split <;> rw [Bool.and_eq_true, decide_eq_true_iff, decide_eq_true_iff] <;> constructor <;> omega

theorem reads_of_onGrid? {b : Binary} {place : ℤ} {n : Nat} (found : b.onGrid? place = some n) :
    b.reads (b.scale place) n = true := by
  unfold onGrid? at found
  dsimp only at found
  split at found
  · next here next =>
    split at found <;> cases found
    · exact here
    · exact next
  · next here _ =>
    cases found
    exact here
  · next _ next =>
    cases found
    exact next
  · contradiction

/-- On a grid that is finer than a quarter of the last place, some point rounds to the number. -/
theorem exists_onGrid? {b : Binary} (nonzero : 0 < b.mantissa) {place : ℤ}
    (fine : (10 : ℚ) ^ place ≤ b.step) : ∃ n, b.onGrid? place = some n := by
  obtain ⟨d, positive, unit, point⟩ := b.scale_spec place
  have fine : (b.scale place).point ≤ (b.scale place).unit := by
    rw [← Nat.cast_le (α := ℚ), unit, point]
    exact mul_le_mul_of_nonneg_right fine positive.le
  have some : 0 < (b.scale place).point := by
    rw [← Nat.cast_pos (α := ℚ), point]
    positivity
  have reads := reads_floor nonzero some fine
  unfold onGrid?
  simp only [reads]
  split
  · split <;> exact ⟨_, rfl⟩
  · exact ⟨_, rfl⟩
  · contradiction
  · contradiction

/-- A search that reaches a fine grid finds digits that read back. -/
theorem search_holds {b : Binary} (nonzero : 0 < b.mantissa) {steps : Nat} {place : ℤ}
    (fine : (10 : ℚ) ^ (place - steps) ≤ b.step) :
    ∃ n p, b.search (steps + 1) place = ⟨n, p⟩ ∧ b.Holds (n * 10 ^ p) := by
  induction steps generalizing place with
  | zero =>
    rw [Nat.cast_zero, sub_zero] at fine
    obtain ⟨n, found⟩ := exists_onGrid? nonzero fine
    exact ⟨n, place, by rw [search, found], (b.reads_iff place n).mp (reads_of_onGrid? found)⟩
  | succ steps ih =>
    rw [search]
    cases found : b.onGrid? place with
    | some n => exact ⟨n, place, rfl, (b.reads_iff place n).mp (reads_of_onGrid? found)⟩
    | none =>
      apply ih
      rwa [sub_sub, add_comm, ← Nat.cast_succ]

/-- Powers compare by a bound on the ratio of the logarithms of their bases. -/
theorem pow_le_pow_of_ratio {a b m n t k : Nat} (bases : a ^ m ≤ b ^ n) (some : m ≠ 0) (base : 0 < b)
    (ratio : n * t ≤ m * k) : a ^ t ≤ b ^ k := by
  rw [← Nat.pow_le_pow_iff_left some]
  calc (a ^ t) ^ m = (a ^ m) ^ t := Nat.pow_right_comm a t m
    _ ≤ (b ^ n) ^ t := Nat.pow_le_pow_left bases t
    _ = b ^ (n * t) := (Nat.pow_mul b n t).symm
    _ ≤ b ^ (m * k) := Nat.pow_le_pow_right base ratio
    _ = (b ^ k) ^ m := by rw [Nat.mul_comm, Nat.pow_mul]

/-- Twenty grids below the highest are enough for every exponent of a 64-bit number. -/
theorem ten_zpow_le {e : ℤ} (least : leastExponent ≤ e) (most : e ≤ 971) {place : ℤ}
    (last : place ≤ (54 + e) * 30103 / 100000 - 18) : (10 : ℚ) ^ place ≤ 2 ^ (e - 2) := by
  unfold leastExponent at least
  rcases le_or_gt 0 place with whole | fraction
  · lift place to ℕ using whole
    obtain ⟨k, exponent⟩ : ∃ k : ℕ, e - 2 = k := ⟨(e - 2).toNat, by omega⟩
    rw [exponent, zpow_natCast, zpow_natCast]
    have ratio : 196 * place ≤ 59 * k := by omega
    exact_mod_cast pow_le_pow_of_ratio (by decide : 10 ^ 59 ≤ 2 ^ 196) (by decide) two_pos ratio
  · rcases le_or_gt 0 (e - 2) with large | small
    · exact (zpow_le_one_of_nonpos₀ (by norm_num) fraction.le).trans
        (one_le_zpow₀ one_le_two large)
    · obtain ⟨j, negated⟩ : ∃ j : ℕ, place = -j := ⟨(-place).toNat, by omega⟩
      obtain ⟨k, exponent⟩ : ∃ k : ℕ, e - 2 = -k := ⟨(2 - e).toNat, by omega⟩
      rw [negated, exponent, zpow_neg, zpow_neg, zpow_natCast, zpow_natCast]
      have ratio : 28 * k ≤ 93 * j := by omega
      refine inv_anti₀ (by positivity) ?_
      exact_mod_cast pow_le_pow_of_ratio (by decide : 2 ^ 93 ≤ 10 ^ 28) (by decide) (by decide) ratio

/-- The shortest digits read back. -/
theorem shortest_holds {b : Binary} (normal : b.Normal) (most : b.exponent ≤ 971)
    (nonzero : 0 < b.mantissa) :
    b.Holds (b.shortest.digits * 10 ^ b.shortest.exponent) := by
  have bits : Nat.log2 b.mantissa < 53 := by
    rw [Nat.log2_lt nonzero.ne']
    exact normal.small
  have fine : (10 : ℚ) ^ (b.topPlace - (19 : ℕ)) ≤ b.step := by
    refine ten_zpow_le normal.least most ?_
    unfold topPlace
    omega
  obtain ⟨n, p, found, holds⟩ := search_holds nonzero fine
  rw [shortest, gridCount, found]
  exact holds

end Binary
end ScopeScript
