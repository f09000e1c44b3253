import Mathlib.Data.Nat.Log
import Mathlib.Tactic.Ring

/-!
# Rounding to a number of significant bits

A natural number is rounded to `p` significant bits by dropping the bits below them, to the nearest
number that is left, and to the even one between two. The result is a number of at most `p` bits
times a power of two.

`single` is the bit pattern of such a number for `p = 24`: the exponent of the leading bit over the
23 bits below it. Different numbers have different patterns.
-/

namespace Rounding

/-- `n / 2 ^ e` rounded to the nearest number, halves to the even one. -/
def nearest (n e : Nat) : Nat :=
  if 2 ^ e < 2 * (n % 2 ^ e) ∨ 2 * (n % 2 ^ e) = 2 ^ e ∧ n / 2 ^ e % 2 = 1 then n / 2 ^ e + 1
  else n / 2 ^ e

/-- The number of bits of `n` beyond the first `p`. -/
def dropped (p n : Nat) : Nat := n.log2 + 1 - p

/-- `n` rounded to `p` significant bits. -/
def round (p n : Nat) : Nat := nearest n (dropped p n) * 2 ^ dropped p n

theorem nearest_le (n e : Nat) : nearest n e ≤ n / 2 ^ e + 1 := by
  rw [nearest]
  split <;> omega

theorem lt_two_pow_dropped (p n : Nat) : n < 2 ^ (p + dropped p n) := by
  have hlog : n < 2 ^ (n.log2 + 1) := Nat.lt_log2_self
  exact lt_of_lt_of_le hlog (Nat.pow_le_pow_right (by decide) (by rw [dropped]; omega))

/-- What is left has `p` bits, or is the next power of two. -/
theorem nearest_dropped_le (p n : Nat) : nearest n (dropped p n) ≤ 2 ^ p := by
  have hquot : n / 2 ^ dropped p n < 2 ^ p := by
    rw [Nat.div_lt_iff_lt_mul (Nat.two_pow_pos _), ← Nat.pow_add]
    exact lt_two_pow_dropped p n
  have hle := nearest_le n (dropped p n)
  omega

theorem round_le_two_pow {p n k : Nat} (hp : 0 < p) (hn : n < 2 ^ (p + k)) :
    round p n ≤ 2 ^ (p + k) := by
  have hdrop : dropped p n ≤ k := by
    by_cases h0 : n = 0
    · rw [dropped, h0, Nat.log2_zero]
      omega
    · have hlog := (Nat.log2_lt h0).mpr hn
      rw [dropped]
      omega
  rw [round, Nat.pow_add]
  exact Nat.mul_le_mul (nearest_dropped_le p n) (Nat.pow_le_pow_right (by decide) hdrop)

/-! ## Bit patterns -/

/-- A number of at most 24 significant bits. -/
def Single (m : Nat) : Prop := 2 ^ m.log2 ∣ m * 2 ^ 23

/-- The bit pattern of a number of at most 24 significant bits. -/
def single (m : Nat) : Nat :=
  if m = 0 then 0 else (127 + m.log2) * 2 ^ 23 + (m * 2 ^ 23 / 2 ^ m.log2 - 2 ^ 23)

theorem single_mul {q : Nat} (hq : q ≤ 2 ^ 24) (e : Nat) : Single (q * 2 ^ e) := by
  by_cases h0 : q = 0
  · rw [Single, h0, Nat.zero_mul, Nat.zero_mul]
    exact Nat.dvd_zero _
  · have hpos : q * 2 ^ e ≠ 0 := Nat.mul_ne_zero h0 (Nat.two_pow_pos e).ne'
    have hlog : (q * 2 ^ e).log2 = q.log2 + e := by
      rw [Nat.log2_eq_iff hpos]
      constructor
      · rw [Nat.pow_add]
        exact Nat.mul_le_mul_right _ (Nat.log2_self_le h0)
      · rw [show q.log2 + e + 1 = (q.log2 + 1) + e by omega, Nat.pow_add]
        exact Nat.mul_lt_mul_of_pos_right Nat.lt_log2_self (Nat.two_pow_pos e)
    rw [Single, hlog, Nat.pow_add]
    by_cases htop : q = 2 ^ 24
    · rw [htop, Nat.log2_two_pow]
      exact Dvd.intro (2 ^ 23) rfl
    · -- the power of two of the leading bit divides the one of the fraction
      have hlt : q.log2 ≤ 23 := by
        have := (Nat.log2_lt h0).mpr (show q < 2 ^ 24 by omega)
        omega
      have hfrac : 2 ^ q.log2 ∣ 2 ^ 23 := Nat.pow_dvd_pow 2 hlt
      calc 2 ^ q.log2 * 2 ^ e ∣ 2 ^ 23 * 2 ^ e := Nat.mul_dvd_mul_right hfrac _
        _ ∣ q * 2 ^ e * 2 ^ 23 := ⟨q, by ring⟩

theorem single_round (n : Nat) : Single (round 24 n) := single_mul (nearest_dropped_le 24 n) _

/-- The fraction without the leading bit. -/
theorem fraction_lt {m : Nat} (hm : m ≠ 0) :
    2 ^ 23 ≤ m * 2 ^ 23 / 2 ^ m.log2 ∧ m * 2 ^ 23 / 2 ^ m.log2 < 2 ^ 24 := by
  have hlo := Nat.log2_self_le hm
  have hhi : m < 2 ^ (m.log2 + 1) := Nat.lt_log2_self
  have hpos := Nat.two_pow_pos m.log2
  constructor
  · rw [Nat.le_div_iff_mul_le hpos, Nat.mul_comm]
    exact Nat.mul_le_mul_right _ hlo
  · rw [Nat.div_lt_iff_lt_mul hpos]
    rw [Nat.pow_succ] at hhi
    omega

/-- **Different numbers have different patterns.** -/
theorem single_inj {m k : Nat} (hm : Single m) (hk : Single k) (h : single m = single k) :
    m = k := by
  by_cases hm0 : m = 0
  · by_cases hk0 : k = 0
    · rw [hm0, hk0]
    · rw [single, single, if_pos hm0, if_neg hk0] at h
      omega
  · by_cases hk0 : k = 0
    · rw [single, single, if_neg hm0, if_pos hk0] at h
      omega
    · rw [single, single, if_neg hm0, if_neg hk0] at h
      have hfm := fraction_lt hm0
      have hfk := fraction_lt hk0
      have hlog : m.log2 = k.log2 := by omega
      have hfrac : m * 2 ^ 23 / 2 ^ m.log2 = k * 2 ^ 23 / 2 ^ k.log2 := by omega
      have hmul : m * 2 ^ 23 = k * 2 ^ 23 := by
        rw [← Nat.div_mul_cancel hm, ← Nat.div_mul_cancel hk, hfrac, hlog]
      exact Nat.eq_of_mul_eq_mul_right (by decide) hmul

theorem single_lt {m : Nat} (hm : m ≤ 2 ^ 32) : single m < 2 ^ 32 := by
  by_cases hm0 : m = 0
  · rw [single, if_pos hm0]
    decide
  · have hfm := fraction_lt hm0
    have hlog : m.log2 < 33 := (Nat.log2_lt hm0).mpr (by omega)
    rw [single, if_neg hm0]
    omega

end Rounding
