import Mathlib

/-!
# Means over windows of a sequence

`mean s f l` is the mean of `s f`, …, `s (l - 1)`. A window that is moved up a sequence that does
not fall, at either end, gets no smaller mean.
-/

namespace WindowMean

variable {K : Type*} [Field K] [LinearOrder K] [IsStrictOrderedRing K] {s : ℕ → K} {f f' l l' n : ℕ}
  {c : K}

def mean (s : ℕ → K) (f l : ℕ) : K := (∑ i ∈ Finset.Ico f l, s i) / ((l - f : ℕ) : K)

theorem width_pos (h : f < l) : (0 : K) < ((l - f : ℕ) : K) := Nat.cast_pos.2 (Nat.sub_pos_of_lt h)

theorem mean_le (h : f < l) (hs : ∀ i, f ≤ i → i < l → s i ≤ c) : mean s f l ≤ c := by
  rw [mean, div_le_iff₀ (width_pos h)]
  have hsum := Finset.sum_le_card_nsmul (Finset.Ico f l) s c fun i hi =>
    hs i (Finset.mem_Ico.1 hi).1 (Finset.mem_Ico.1 hi).2
  rwa [Nat.card_Ico, nsmul_eq_mul, mul_comm] at hsum

theorem mean_lt (h : f < l) (hs : ∀ i, f ≤ i → i < l → s i < c) : mean s f l < c := by
  rw [mean, div_lt_iff₀ (width_pos h)]
  have hsum := Finset.sum_lt_sum_of_nonempty (Finset.nonempty_Ico.2 h) fun i hi =>
    hs i (Finset.mem_Ico.1 hi).1 (Finset.mem_Ico.1 hi).2
  rwa [Finset.sum_const, Nat.card_Ico, nsmul_eq_mul, mul_comm] at hsum

theorem le_mean (h : f < l) (hs : ∀ i, f ≤ i → i < l → c ≤ s i) : c ≤ mean s f l := by
  rw [mean, le_div_iff₀ (width_pos h)]
  have hsum := Finset.card_nsmul_le_sum (Finset.Ico f l) s c fun i hi =>
    hs i (Finset.mem_Ico.1 hi).1 (Finset.mem_Ico.1 hi).2
  rwa [Nat.card_Ico, nsmul_eq_mul, mul_comm] at hsum

theorem sum_eq_mean_mul (h : f < l) :
    ∑ i ∈ Finset.Ico f l, s i = mean s f l * ((l - f : ℕ) : K) := by
  rw [mean, div_mul_cancel₀ _ (width_pos h).ne']

/-- One more element at the end. -/
theorem mean_le_mean_succ (h : f < l) (hl : mean s f l ≤ s l) : mean s f l ≤ mean s f (l + 1) := by
  rw [mean.eq_1 s f (l + 1), le_div_iff₀ (width_pos (h.trans l.lt_succ_self)),
    Finset.sum_Ico_succ_top h.le, sum_eq_mean_mul h, Nat.succ_sub h.le, Nat.cast_succ, mul_add,
    mul_one]
  exact add_le_add_right hl _

/-- One element less at the beginning. -/
theorem mean_le_mean_of_drop (h : f + 1 < l) (hf : s f ≤ mean s (f + 1) l) :
    mean s f l ≤ mean s (f + 1) l := by
  have hfl : f < l := (Nat.lt_succ_self f).trans h
  have hwidth : l - f = l - (f + 1) + 1 := by omega
  rw [mean.eq_1 s f l, div_le_iff₀ (width_pos hfl), Finset.sum_eq_sum_Ico_succ_bot hfl,
    sum_eq_mean_mul h, hwidth, Nat.cast_succ, mul_add, mul_one, add_comm]
  exact add_le_add_right hf _

theorem mean_mono_right (hs : MonotoneOn s (Set.Iio n)) (h : f < l) (hl : l ≤ l') (hn : l' ≤ n) :
    mean s f l ≤ mean s f l' := by
  induction l', hl using Nat.le_induction with
  | base => exact le_refl _
  | succ l' hle ih =>
    refine (ih (Nat.le_of_succ_le hn)).trans (mean_le_mean_succ (h.trans_le hle) ?_)
    exact mean_le (h.trans_le hle) fun i _ hi =>
      hs (Set.mem_Iio.2 (hi.trans hn)) (Set.mem_Iio.2 hn) hi.le

theorem mean_mono_left (hs : MonotoneOn s (Set.Iio n)) (hf : f ≤ f') (h : f' < l) (hn : l ≤ n) :
    mean s f l ≤ mean s f' l := by
  induction f', hf using Nat.le_induction with
  | base => exact le_refl _
  | succ f' hle ih =>
    refine (ih (Nat.lt_of_succ_lt h)).trans (mean_le_mean_of_drop h ?_)
    refine le_mean h fun i hi hil => hs ?_ (Set.mem_Iio.2 (hil.trans_le hn)) (Nat.le_of_succ_le hi)
    exact Set.mem_Iio.2 ((Nat.lt_of_succ_lt h).trans_le hn)

/-- A window that is moved up. -/
theorem mean_mono (hs : MonotoneOn s (Set.Iio n)) (h : f < l) (hf : f ≤ f') (hl : l ≤ l')
    (h' : f' < l') (hn : l' ≤ n) : mean s f l ≤ mean s f' l' :=
  (mean_mono_right hs h hl hn).trans (mean_mono_left hs hf h' hn)

end WindowMean
