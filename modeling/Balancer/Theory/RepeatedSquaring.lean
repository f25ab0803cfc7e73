import Balancer.Theory.Runs

/-!
# Repeated squaring

A power with an exponent that is a signed number. One loop squares while the last bit of the
exponent is 0, the other one squares for every bit that is left. The bits are taken off by an
arithmetic shift, which makes 0 of a number exactly if it is not negative; so the power is returned
for these exponents and for no other (`power_iff`).
-/

namespace RepeatedSquaring

open Runs

variable {M : Type} [Monoid M]

/-- A turn of `while ((n & 1) == 0)`. -/
def evenTurn : M × ℤ → Turn Unit (M × ℤ)
  | (x, n) => if n % 2 = 0 then .again (x * x, n >>> (1 : ℕ)) else .exit () (x, n)

/-- A turn of `while (n != 0)`. -/
def bitTurn : M × M × ℤ → Turn M (M × M × ℤ)
  | (x, result, n) =>
    if n ≠ 0 then .again (x * x, if n % 2 ≠ 0 then result * (x * x) else result, n >>> (1 : ℕ))
    else .exit result (x, result, n)

/-- There is no result if a loop takes more than `fuel` turns. -/
def power (fuel : Nat) (x : M) (n : ℤ) : Option M :=
  if n = 0 then some 1
  else
    match turns evenTurn fuel (x, n) with
    | .exit _ (x, n) =>
      match turns bitTurn fuel (x, x, n >>> (1 : ℕ)) with
      | .exit result _ => some result
      | _ => none
    | _ => none

variable {x x' r y : M} {n n' : ℤ} {k : Nat}

theorem evenTurn_even (x : M) (h : n % 2 = 0) : evenTurn (x, n) = .again (x * x, n >>> (1 : ℕ)) :=
  if_pos h

theorem evenTurn_odd (x : M) (h : n % 2 ≠ 0) : evenTurn (x, n) = .exit () (x, n) := if_neg h

theorem bitTurn_zero (x r : M) : bitTurn (x, r, 0) = .exit r (x, r, 0) := rfl

theorem bitTurn_bit (x r : M) (h : n ≠ 0) :
    bitTurn (x, r, n) = .again (x * x, if n % 2 ≠ 0 then r * (x * x) else r, n >>> (1 : ℕ)) :=
  if_pos h

theorem shift_nonneg : 0 ≤ n >>> (1 : ℕ) ↔ 0 ≤ n := by
  rw [Int.shiftRight_eq_div_pow]
  omega

theorem toNat_eq (h : 0 ≤ n) : n.toNat = 2 * (n >>> (1 : ℕ)).toNat + (n % 2).toNat := by
  rw [Int.shiftRight_eq_div_pow]
  omega

theorem pow_of_even (h : 0 ≤ n) (heven : n % 2 = 0) (x : M) :
    (x * x) ^ (n >>> (1 : ℕ)).toNat = x ^ n.toNat := by
  rw [toNat_eq h, heven, Int.toNat_zero, Nat.add_zero, pow_mul, pow_two]

theorem pow_of_odd (h : 0 ≤ n) (hodd : n % 2 ≠ 0) (x : M) :
    x * (x * x) ^ (n >>> (1 : ℕ)).toNat = x ^ n.toNat := by
  have hone : (n % 2).toNat = 1 := by omega
  rw [toNat_eq h, hone, pow_succ', pow_mul, pow_two]

/-! ### What the loops leave -/

/-- The first loop keeps the power, and the sign of the exponent. -/
theorem evenTurn_exit {u : Unit} (h : turns evenTurn k (x, n) = .exit u (x', n')) :
    n' % 2 ≠ 0 ∧ (0 ≤ n ↔ 0 ≤ n') ∧ (0 ≤ n → x' ^ n'.toNat = x ^ n.toNat) := by
  induction k generalizing x n with
  | zero => cases h
  | succ k ih =>
    by_cases heven : n % 2 = 0
    · rw [turns_again (evenTurn_even x heven)] at h
      obtain ⟨hodd, hsign, hpow⟩ := ih h
      refine ⟨hodd, shift_nonneg.symm.trans hsign, fun hn => ?_⟩
      rw [hpow (shift_nonneg.2 hn), pow_of_even hn heven]
    · simp only [turns, evenTurn_odd x heven] at h
      cases h
      exact ⟨heven, Iff.rfl, fun _ => rfl⟩

/-- The second loop is left if the exponent is not negative, with the powers of the squares
multiplied. -/
theorem bitTurn_exit {s : M × M × ℤ} (h : turns bitTurn k (x, r, n) = .exit y s) :
    0 ≤ n ∧ y = r * (x * x) ^ n.toNat := by
  induction k generalizing x r n with
  | zero => cases h
  | succ k ih =>
    by_cases hn : n = 0
    · subst hn
      simp only [turns, bitTurn_zero] at h
      cases h
      exact ⟨le_rfl, by rw [Int.toNat_zero, pow_zero, mul_one]⟩
    · rw [turns_again (bitTurn_bit x r hn)] at h
      obtain ⟨hnonneg, rfl⟩ := ih h
      have hn' := shift_nonneg.1 hnonneg
      refine ⟨hn', ?_⟩
      by_cases hodd : n % 2 ≠ 0
      · rw [if_pos hodd, mul_assoc, pow_of_odd hn' hodd]
      · rw [if_neg hodd, pow_of_even hn' (not_not.1 hodd)]

theorem exists_bitTurn_exit (h : 0 ≤ n) (x r : M) :
    ∃ k y s, turns bitTurn k (x, r, n) = .exit y s := by
  induction hm : n.toNat using Nat.strongRecOn generalizing x r n with
  | ind m ih =>
    by_cases hn : n = 0
    · subst hn
      exact ⟨1, r, _, rfl⟩
    · have hlt : (n >>> (1 : ℕ)).toNat < m := by
        rw [Int.shiftRight_eq_div_pow]
        omega
      obtain ⟨k, y, s, hk⟩ :=
        ih _ hlt (shift_nonneg.2 h) (x * x) (if n % 2 ≠ 0 then r * (x * x) else r) rfl
      exact ⟨k + 1, y, s, by rwa [turns_again (bitTurn_bit x r hn)]⟩

theorem exists_evenTurn_exit (h : 0 < n) (x : M) :
    ∃ k x' n', turns evenTurn k (x, n) = .exit () (x', n') := by
  induction hm : n.toNat using Nat.strongRecOn generalizing x n with
  | ind m ih =>
    by_cases heven : n % 2 = 0
    · have hshift : 0 < n >>> (1 : ℕ) ∧ (n >>> (1 : ℕ)).toNat < m := by
        rw [Int.shiftRight_eq_div_pow]
        omega
      obtain ⟨k, x', n', hk⟩ := ih _ hshift.2 hshift.1 (x * x) rfl
      exact ⟨k + 1, x', n', by rwa [turns_again (evenTurn_even x heven)]⟩
    · exact ⟨1, x, n, by simp only [turns, evenTurn_odd x heven]⟩

/-! ### The power -/

theorem power_eq_some {fuel : Nat} (h : power fuel x n = some y) : 0 ≤ n ∧ y = x ^ n.toNat := by
  unfold power at h
  split at h
  · next hn =>
    cases h
    rw [hn]
    exact ⟨le_rfl, (pow_zero x).symm⟩
  · split at h
    · next x' n' heven =>
      split at h
      · next s hbit =>
        obtain ⟨hodd, hsign, hpow⟩ := evenTurn_exit heven
        obtain ⟨hnonneg, hy⟩ := bitTurn_exit hbit
        have hn' := shift_nonneg.1 hnonneg
        have hn := hsign.2 hn'
        cases h
        exact ⟨hn, by rw [hy, pow_of_odd hn' hodd, hpow hn]⟩
      · cases h
    · cases h

/-- The loops return the power for an exponent that is not negative, and do not return for a
negative one. -/
theorem power_iff : (∃ fuel, power fuel x n = some y) ↔ 0 ≤ n ∧ y = x ^ n.toNat := by
  constructor
  · rintro ⟨fuel, h⟩
    exact power_eq_some h
  · rintro ⟨hn, rfl⟩
    suffices h : ∃ fuel y, power fuel x n = some y by
      obtain ⟨fuel, y, h⟩ := h
      exact ⟨fuel, (power_eq_some h).2 ▸ h⟩
    by_cases h0 : n = 0
    · exact ⟨0, 1, if_pos h0⟩
    · obtain ⟨k, x', n', heven⟩ := exists_evenTurn_exit (lt_of_le_of_ne hn (Ne.symm h0)) x
      have hn' : 0 ≤ n' := (evenTurn_exit heven).2.1.1 hn
      obtain ⟨l, y, s, hbit⟩ := exists_bitTurn_exit (shift_nonneg.2 hn') x' x'
      refine ⟨max k l, y, ?_⟩
      rw [power, if_neg h0, turns_mono heven (le_max_left k l)]
      simp only [turns_mono hbit (le_max_right k l)]

theorem power_mono {fuel fuel' : Nat} (h : power fuel x n = some y) (hle : fuel ≤ fuel') :
    power fuel' x n = some y := by
  unfold power at h ⊢
  split at h
  · next hn =>
    rw [if_pos hn]
    exact h
  · next hn =>
    rw [if_neg hn]
    split at h
    · next heven =>
      rw [turns_mono heven hle]
      split at h
      · next hbit =>
        simp only [turns_mono hbit hle]
        exact h
      · cases h
    · cases h

end RepeatedSquaring
