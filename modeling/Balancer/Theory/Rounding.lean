import Mathlib

/-!
# Rounding to a number of significant bits

The whole numbers that a binary floating-point format with `p` bits of significand has are those of
at most `p` significant bits. A result is rounded to the nearest of them, and to the even one of two
that are equally near. Below `2 ^ p` nothing is lost.
-/

namespace Rounding

/-- The number of `p` significant bits that is nearest to `n`. -/
def nearest (p n : ℕ) : ℕ :=
  if n < 2 ^ p then n
  else
    let ulp := 2 ^ (n.log2 + 1 - p)
    if 2 * (n % ulp) < ulp ∨ (2 * (n % ulp) = ulp ∧ n / ulp % 2 = 0) then n / ulp * ulp
    else (n / ulp + 1) * ulp

variable {p n : ℕ}

theorem nearest_of_lt (h : n < 2 ^ p) : nearest p n = n := if_pos h

theorem le_nearest (hp : 0 < p) (h : 2 ^ p ≤ n) : 2 ^ p ≤ nearest p n := by
  have hn : n ≠ 0 := ((Nat.two_pow_pos p).trans_le h).ne'
  have hlog : p ≤ n.log2 := (Nat.le_log2 hn).2 h
  -- the power of two below `n` is a multiple of the last place
  obtain ⟨k, hk⟩ : 2 ^ (n.log2 + 1 - p) ∣ 2 ^ n.log2 := Nat.pow_dvd_pow 2 (by omega)
  have hlow : 2 ^ p ≤ n / 2 ^ (n.log2 + 1 - p) * 2 ^ (n.log2 + 1 - p) := by
    calc 2 ^ p ≤ 2 ^ n.log2 := Nat.pow_le_pow_right Nat.two_pos hlog
      _ = k * 2 ^ (n.log2 + 1 - p) := by rw [hk, Nat.mul_comm]
      _ ≤ n / 2 ^ (n.log2 + 1 - p) * 2 ^ (n.log2 + 1 - p) := by
        refine Nat.mul_le_mul_right _ ((Nat.le_div_iff_mul_le (Nat.two_pow_pos _)).2 ?_)
        rw [Nat.mul_comm, ← hk]
        exact Nat.log2_self_le hn
  simp only [nearest, if_neg (Nat.not_lt.2 h)]
  split
  · exact hlow
  · exact hlow.trans (Nat.mul_le_mul_right _ (Nat.le_succ _))

/-- A rounded value below `2 ^ p` is exact. -/
theorem nearest_eq_of_lt (hp : 0 < p) (h : nearest p n < 2 ^ p) : nearest p n = n := by
  rcases Nat.lt_or_ge n (2 ^ p) with hn | hn
  · exact nearest_of_lt hn
  · exact absurd (le_nearest hp hn) (Nat.not_le.2 h)

example : nearest 53 (2 ^ 53 + 1) = 2 ^ 53 := by decide +kernel

end Rounding
