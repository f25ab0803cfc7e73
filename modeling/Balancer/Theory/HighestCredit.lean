import Mathlib

/-!
# Picking the highest credit

Elements of a finite set carry credits. In a turn every element earns its weight, and one of those
with the highest credit is picked and pays the sum of all weights. The credits keep their sum, and
none of them falls to minus that sum of weights, so the number of picks of an element stays near its
share of the turns (`Turns.count_lt`, `Turns.le_count`). With whole weights, all debts are settled
after as many turns as the weights add up to (`Turns.settled`).
-/

namespace HighestCredit

variable {ι K : Type*} [DecidableEq ι] [Field K] [LinearOrder K] {s : Finset ι}
  {w e e' : ι → K} {i : ι}

/-- One turn. -/
structure Turn (s : Finset ι) (w e : ι → K) (i : ι) (e' : ι → K) : Prop where
  mem : i ∈ s
  highest : ∀ j ∈ s, e j + w j ≤ e i + w i
  picked : e' i = e i + w i - ∑ j ∈ s, w j
  others : ∀ j ∈ s, j ≠ i → e' j = e j + w j

/-- One turn after the other. -/
inductive Turns (s : Finset ι) (w : ι → K) : (ι → K) → List ι → (ι → K) → Prop
  | nil (e : ι → K) : Turns s w e [] e
  | cons {e e' e'' : ι → K} {i : ι} {is : List ι} :
    Turn s w e i e' → Turns s w e' is e'' → Turns s w e (i :: is) e''

theorem Turn.sum_eq (h : Turn s w e i e') : ∑ j ∈ s, e' j = ∑ j ∈ s, e j := by
  have hothers : ∑ j ∈ s.erase i, e' j = ∑ j ∈ s.erase i, (e j + w j) :=
    Finset.sum_congr rfl fun j hj =>
      h.others j (Finset.mem_of_mem_erase hj) (Finset.ne_of_mem_erase hj)
  have hall : ∑ j ∈ s, (e j + w j) = ∑ j ∈ s, e j + ∑ j ∈ s, w j := Finset.sum_add_distrib
  rw [← Finset.add_sum_erase s _ h.mem, hothers, h.picked]
  rw [← Finset.add_sum_erase s _ h.mem] at hall
  linear_combination hall

variable [IsStrictOrderedRing K]

omit [DecidableEq ι] in
/-- The highest credit is positive when the credits add up to 0. -/
theorem Turn.highest_pos (h : Turn s w e i e') (hw : ∀ j ∈ s, 0 < w j) (hsum : ∑ j ∈ s, e j = 0) :
    0 < e i + w i := by
  by_contra hle
  have hnonpos : ∑ j ∈ s, (e j + w j) ≤ 0 :=
    Finset.sum_nonpos fun j hj => (h.highest j hj).trans (not_lt.1 hle)
  rw [Finset.sum_add_distrib, hsum, zero_add] at hnonpos
  exact absurd (Finset.sum_pos hw ⟨i, h.mem⟩) (not_lt.2 hnonpos)

/-- Weights may change from turn to turn: a bound of their sums bounds the debts. -/
theorem Turn.neg_lt_of_le {B : K} (h : Turn s w e i e') (hw : ∀ j ∈ s, 0 < w j)
    (hsum : ∑ j ∈ s, e j = 0) (hB : ∑ k ∈ s, w k ≤ B) (hlow : ∀ j ∈ s, -B < e j) :
    ∀ j ∈ s, -B < e' j := by
  intro j hj
  by_cases hji : j = i
  · subst hji
    have hpos := h.highest_pos hw hsum
    rw [h.picked]
    linarith
  · rw [h.others j hj hji]
    have hlt := hlow j hj
    have hwj := hw j hj
    linarith

/-- A bound of the debts bounds the credits. -/
theorem le_of_neg_lt {B : K} (hsum : ∑ j ∈ s, e j = 0) (hlow : ∀ j ∈ s, -B < e j) (hi : i ∈ s) :
    e i ≤ (s.card - 1 : ℕ) * B := by
  -- the others can not owe more
  have hothers :=
    Finset.card_nsmul_le_sum (s.erase i) e (-B) fun k hk => (hlow k (Finset.mem_of_mem_erase hk)).le
  rw [Finset.card_erase_of_mem hi, nsmul_eq_mul] at hothers
  rw [← Finset.add_sum_erase s _ hi] at hsum
  linarith

namespace Turns

variable {is : List ι}

/-- From credits of 0 on, their sum stays 0 and each stays above minus the sum of the weights. -/
theorem invariant (h : Turns s w e is e') (hw : ∀ j ∈ s, 0 < w j) (hsum : ∑ j ∈ s, e j = 0)
    (hlow : ∀ j ∈ s, -∑ k ∈ s, w k < e j) :
    ∑ j ∈ s, e' j = 0 ∧ ∀ j ∈ s, -∑ k ∈ s, w k < e' j := by
  induction h with
  | nil e => exact ⟨hsum, hlow⟩
  | cons ht _ ih => exact ih (ht.sum_eq.trans hsum) (ht.neg_lt_of_le hw hsum le_rfl hlow)

omit [DecidableEq ι] [IsStrictOrderedRing K] in
theorem of_append {js : List ι} (h : Turns s w e (is ++ js) e') :
    ∃ e₁, Turns s w e is e₁ ∧ Turns s w e₁ js e' := by
  induction is generalizing e with
  | nil => exact ⟨e, .nil e, h⟩
  | cons i is ih =>
    cases h with
    | cons ht h =>
      obtain ⟨e₁, h₁, h₂⟩ := ih h
      exact ⟨e₁, .cons ht h₁, h₂⟩

omit [IsStrictOrderedRing K] in
/-- A credit counts the turns and the picks. -/
theorem credit_eq (h : Turns s w e is e') {j : ι} (hj : j ∈ s) :
    e' j = e j + is.length * w j - is.count j * ∑ k ∈ s, w k := by
  induction h with
  | nil e => simp
  | @cons e e₁ e' i is ht _ ih =>
    rw [ih, List.length_cons]
    by_cases hji : j = i
    · subst hji
      rw [ht.picked, List.count_cons_self]
      push_cast
      ring
    · rw [ht.others j hj hji, List.count_cons_of_ne (Ne.symm hji)]
      push_cast
      ring

omit [IsStrictOrderedRing K] in
theorem credit_of_zero (h : Turns s w e is e') (he : ∀ j ∈ s, e j = 0) {j : ι} (hj : j ∈ s) :
    e' j = is.length * w j - is.count j * ∑ k ∈ s, w k := by
  rw [h.credit_eq hj, he j hj, zero_add]

section
variable (h : Turns s w e is e') (hw : ∀ j ∈ s, 0 < w j) (he : ∀ j ∈ s, e j = 0)
include h hw he

theorem of_zero : ∑ j ∈ s, e' j = 0 ∧ ∀ j ∈ s, -∑ k ∈ s, w k < e' j := by
  refine h.invariant hw (Finset.sum_eq_zero he) fun j hj => ?_
  rw [he j hj, neg_lt_zero]
  exact Finset.sum_pos hw ⟨j, hj⟩

/-- No element is picked once more than its share. -/
theorem count_lt {j : ι} (hj : j ∈ s) : (is.count j : K) < is.length * w j / ∑ k ∈ s, w k + 1 := by
  have hpos : 0 < ∑ k ∈ s, w k := Finset.sum_pos hw ⟨j, hj⟩
  have hlow := (h.of_zero hw he).2 j hj
  rw [h.credit_of_zero he hj] at hlow
  rw [← sub_lt_iff_lt_add, lt_div_iff₀ hpos]
  linarith

/-- An element lags behind its share by no more than the number of the others. -/
theorem le_count {j : ι} (hj : j ∈ s) :
    is.length * w j / ∑ k ∈ s, w k - (s.card - 1 : ℕ) ≤ (is.count j : K) := by
  have hpos : 0 < ∑ k ∈ s, w k := Finset.sum_pos hw ⟨j, hj⟩
  obtain ⟨hsum, hlow⟩ := h.of_zero hw he
  have hle := le_of_neg_lt hsum hlow hj
  rw [h.credit_of_zero he hj] at hle
  rw [sub_le_iff_le_add, div_le_iff₀ hpos]
  linarith

/-- With whole weights the credits are 0 again whenever the turns are a multiple of their sum. -/
theorem settled {v : ι → ℕ} (hv : ∀ j ∈ s, w j = v j) {m : ℕ} (hm : is.length = m * ∑ k ∈ s, v k) :
    ∀ j ∈ s, e' j = 0 ∧ is.count j = m * v j := by
  have hW : ∑ k ∈ s, w k = ((∑ k ∈ s, v k : ℕ) : K) := by
    rw [Nat.cast_sum]
    exact Finset.sum_congr rfl hv
  obtain ⟨hsum, hlow⟩ := h.of_zero hw he
  have heq : ∀ j ∈ s, e' j = ((m * v j : ℕ) - (is.count j : K)) * ∑ k ∈ s, w k := by
    intro j hj
    rw [h.credit_of_zero he hj, hm, hv j hj, hW]
    push_cast
    ring
  have hpos : ∀ j ∈ s, 0 < ∑ k ∈ s, w k := fun j hj => Finset.sum_pos hw ⟨j, hj⟩
  -- a multiple of the sum above minus one time the sum
  have hcount : ∀ j ∈ s, is.count j ≤ m * v j := by
    intro j hj
    have hlt := hlow j hj
    rw [heq j hj, ← neg_one_mul, mul_lt_mul_iff_left₀ (hpos j hj)] at hlt
    have hcast : ((is.count j : ℕ) : K) < ((m * v j + 1 : ℕ) : K) := by
      push_cast at hlt ⊢
      linarith
    exact Nat.lt_succ_iff.1 (Nat.cast_lt.1 hcast)
  have hnonneg : ∀ j ∈ s, 0 ≤ e' j := by
    intro j hj
    rw [heq j hj]
    exact mul_nonneg (sub_nonneg.2 (Nat.cast_le.2 (hcount j hj))) (hpos j hj).le
  have hzero := (Finset.sum_eq_zero_iff_of_nonneg hnonneg).1 hsum
  intro j hj
  refine ⟨hzero j hj, ?_⟩
  have hj0 := hzero j hj
  rw [heq j hj, mul_eq_zero, or_iff_left (hpos j hj).ne', sub_eq_zero, Nat.cast_inj] at hj0
  exact hj0.symm

/-- So every element is picked as often as its weight says in each of these cycles. -/
theorem cycle {v : ι → ℕ} (hv : ∀ j ∈ s, w j = v j) {m : ℕ}
    (hm : is.length = (m + 1) * ∑ k ∈ s, v k) :
    ∃ before last, is = before ++ last ∧ before.length = m * ∑ k ∈ s, v k ∧ ∀ j ∈ s, e' j = 0 ∧
      last.count j = v j := by
  have hlen : (is.take (m * ∑ k ∈ s, v k)).length = m * ∑ k ∈ s, v k := by
    rw [List.length_take, hm, Nat.succ_mul, Nat.min_eq_left (Nat.le_add_right _ _)]
  have hlen' : (is.drop (m * ∑ k ∈ s, v k)).length = 1 * ∑ k ∈ s, v k := by
    rw [List.length_drop, hm, Nat.succ_mul, Nat.add_sub_cancel_left, Nat.one_mul]
  rw [← List.take_append_drop (m * ∑ k ∈ s, v k) is] at h
  obtain ⟨e₁, h₁, h₂⟩ := of_append h
  have he₁ : ∀ j ∈ s, e₁ j = 0 := fun j hj => (h₁.settled hw he hv hlen j hj).1
  refine ⟨_, _, (List.take_append_drop _ is).symm, hlen, fun j hj => ?_⟩
  have hlast := h₂.settled hw he₁ hv hlen' j hj
  rwa [Nat.one_mul] at hlast

end

end Turns

end HighestCredit
