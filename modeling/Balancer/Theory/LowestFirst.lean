import Mathlib

/-!
# Picking the lowest

Elements of a finite set carry weights. A pick takes an element of the lowest weight and raises its
weight by the step of the element; which of several lowest elements is taken is left open. When all
steps are positive, nobody is passed over for ever: an element that is not picked bounds the number
of picks (`exists_bound`). The weights stay together: an element is never ahead of another one by
more than its step (`Picks.spread`). The same holds when the steps change from pick to pick and are
only bounded (`Climb.spread`), and then nobody is picked much more often than another one
(`Climb.count_between`).
-/

namespace LowestFirst

variable {ι K : Type*} [DecidableEq ι] [Field K] [LinearOrder K]

/-- One pick out of `s`. -/
structure Pick (s : Finset ι) (step W : ι → K) (i : ι) (W' : ι → K) : Prop where
  mem : i ∈ s
  lowest : ∀ j ∈ s, W i ≤ W j
  weights : W' = Function.update W i (W i + step i)

/-- One pick after the other. -/
inductive Picks (s : Finset ι) (step : ι → K) : (ι → K) → List ι → Prop
  | nil (W : ι → K) : Picks s step W []
  | cons {W W' : ι → K} {i : ι} {is : List ι} :
    Pick s step W i W' → Picks s step W' is → Picks s step W (i :: is)

variable {s : Finset ι} {step W W' : ι → K} {i u : ι}

theorem Pick.weight_ne (h : Pick s step W i W') {j : ι} (hj : j ≠ i) : W' j = W j := by
  rw [h.weights, Function.update_of_ne hj]

theorem Pick.weight_eq (h : Pick s step W i W') : W' i = W i + step i := by
  rw [h.weights, Function.update_self]

/-- `c i` more picks would take an element `i` past `u`. -/
def Passes (s : Finset ι) (step W : ι → K) (u : ι) (c : ι → ℕ) : Prop :=
  ∀ i ∈ s, W u < W i + c i * step i

variable [IsStrictOrderedRing K]

/-- A pick of another element uses up one of its picks. -/
theorem Passes.pick {c : ι → ℕ} (H : Passes s step W u c) (hu : u ∈ s) (h : Pick s step W i W')
    (hne : i ≠ u) : 0 < c i ∧ Passes s step W' u (Function.update c i (c i - 1)) := by
  have hpos : 0 < c i := by
    have hlt := H i h.mem
    have hle := h.lowest u hu
    rcases Nat.eq_zero_or_pos (c i) with h0 | h0
    · rw [h0, Nat.cast_zero, zero_mul, add_zero] at hlt
      exact absurd hlt (not_lt.2 hle)
    · exact h0
  refine ⟨hpos, fun j hj => ?_⟩
  rw [h.weight_ne hne.symm]
  by_cases hji : j = i
  · subst hji
    have hc : ((c j - 1 : ℕ) : K) = c j - 1 := by rw [Nat.cast_sub hpos, Nat.cast_one]
    rw [h.weight_eq, Function.update_self, hc]
    have hlt := H j hj
    linarith
  · rw [h.weight_ne hji, Function.update_of_ne hji]
    exact H j hj

theorem Passes.length_le {c : ι → ℕ} (H : Passes s step W u c) (hu : u ∈ s) {is : List ι}
    (h : Picks s step W is) (his : u ∉ is) : is.length ≤ ∑ i ∈ s, c i := by
  induction h generalizing c with
  | nil W => exact Nat.zero_le _
  | @cons W W' i is hp _ ih =>
    rw [List.mem_cons, not_or] at his
    obtain ⟨hpos, H'⟩ := H.pick hu hp fun h => his.1 h.symm
    have hle := ih H' his.2
    have hsum : ∑ j ∈ s, Function.update c i (c i - 1) j + 1 = ∑ j ∈ s, c j := by
      rw [Finset.sum_update_of_mem hp.mem, ← Finset.add_sum_erase s c hp.mem,
        Finset.sdiff_singleton_eq_erase]
      omega
    rw [List.length_cons]
    omega

/-- With positive steps, the number of picks that pass an element over is bounded. -/
theorem exists_bound [Archimedean K] (hstep : ∀ i ∈ s, 0 < step i) (hu : u ∈ s) (W : ι → K) :
    ∃ N, ∀ is, Picks s step W is → u ∉ is → is.length ≤ N := by
  have hc : ∀ i, ∃ n : ℕ, i ∈ s → W u < W i + n * step i := by
    intro i
    by_cases hi : i ∈ s
    · obtain ⟨n, hn⟩ := exists_nat_gt ((W u - W i) / step i)
      refine ⟨n, fun _ => ?_⟩
      rw [div_lt_iff₀ (hstep i hi)] at hn
      linarith
    · exact ⟨0, fun h => absurd h hi⟩
  choose c hc using hc
  exact ⟨∑ i ∈ s, c i, fun is h his => Passes.length_le hc hu h his⟩

/-! ### The weights stay together -/

/-- No element of `s` is ahead of another one by more than its bound. -/
def Spread (s : Finset ι) (B W : ι → K) : Prop := ∀ a ∈ s, ∀ b ∈ s, W a ≤ W b + B a

theorem Pick.le (h : Pick s step W i W') (hstep : 0 ≤ step i) (a : ι) : W a ≤ W' a := by
  by_cases ha : a = i
  · subst ha
    rw [h.weight_eq]
    exact le_add_of_nonneg_right hstep
  · exact (h.weight_ne ha).ge

theorem Pick.spread {B : ι → K} (h : Pick s step W i W') (hstep : 0 ≤ step i) (hB : step i ≤ B i)
    (H : Spread s B W) : Spread s B W' := by
  intro a ha b hb
  by_cases hai : a = i
  · -- it was the lowest before it was raised
    subst hai
    calc W' a = W a + step a := h.weight_eq
      _ ≤ W b + B a := add_le_add (h.lowest b hb) hB
      _ ≤ W' b + B a := add_le_add_left (h.le hstep b) _
  · rw [h.weight_ne hai]
    exact (H a ha b hb).trans (add_le_add_left (h.le hstep b) _)

/-- With fixed steps the weights count the picks. -/
theorem Picks.spread {is : List ι} (h : Picks s step W is) (hstep : ∀ i ∈ s, 0 ≤ step i)
    (H : Spread s step W) : Spread s step fun i => W i + is.count i * step i := by
  induction h with
  | nil W => simpa using H
  | @cons W W' i is hp _ ih =>
    have heq : ∀ a, W' a + is.count a * step a = W a + (i :: is).count a * step a := by
      intro a
      by_cases ha : a = i
      · subst ha
        rw [hp.weight_eq, List.count_cons_self]
        push_cast
        ring
      · rw [hp.weight_ne ha, List.count_cons_of_ne (Ne.symm ha)]
    have hspread := ih (hp.spread (hstep i hp.mem) le_rfl H)
    simpa only [heq] using hspread

/-- Picks whose steps lie between `lo` and `hi`. -/
inductive Climb (s : Finset ι) (lo hi : K) : (ι → K) → List ι → (ι → K) → Prop
  | nil (W : ι → K) : Climb s lo hi W [] W
  | cons {step W W' W'' : ι → K} {i : ι} {is : List ι} :
    Pick s step W i W' → lo ≤ step i → step i ≤ hi → Climb s lo hi W' is W'' →
      Climb s lo hi W (i :: is) W''

namespace Climb

variable {lo hi : K} {is js : List ι}

omit [IsStrictOrderedRing K] in
theorem append (h : Climb s lo hi W is W') {W'' : ι → K} (h' : Climb s lo hi W' js W'') :
    Climb s lo hi W (is ++ js) W'' := by
  induction h with
  | nil W => exact h'
  | cons hp hlo hhi _ ih => exact .cons hp hlo hhi (ih h')

omit [IsStrictOrderedRing K] in
theorem of_append {is js : List ι} (h : Climb s lo hi W (is ++ js) W') :
    ∃ V, Climb s lo hi W is V ∧ Climb s lo hi V js W' := by
  induction is generalizing W with
  | nil => exact ⟨W, .nil W, h⟩
  | cons i is ih =>
    cases h with
    | cons hp hlo hhi h =>
      obtain ⟨V, h₁, h₂⟩ := ih h
      exact ⟨V, .cons hp hlo hhi h₁, h₂⟩

theorem spread (h : Climb s lo hi W is W') (hlo : 0 ≤ lo) (H : Spread s (fun _ => hi) W) :
    Spread s (fun _ => hi) W' := by
  induction h with
  | nil W => exact H
  | cons hp hl hh _ ih => exact ih (hp.spread (hlo.trans hl) hh H)

omit [IsStrictOrderedRing K] in
theorem mem_of_mem (h : Climb s lo hi W is W') {j : ι} (hj : j ∈ is) : j ∈ s := by
  induction h with
  | nil W => cases hj
  | cons hp _ _ _ ih =>
    rcases List.mem_cons.1 hj with rfl | hj
    · exact hp.mem
    · exact ih hj

/-- An element that is picked while another one is not has not passed it before its last pick. -/
theorem count_le (h : Climb s lo hi W is W') (hu : u ∈ s) (his : u ∉ is) {j : ι} (hj : j ∈ is) :
    W j + (is.count j - 1) * lo ≤ W u := by
  induction h with
  | nil W => cases hj
  | @cons step W W' W'' i is hp hl _ hrest ih =>
    rw [List.mem_cons, not_or] at his
    have hWu : W' u = W u := hp.weight_ne his.1
    by_cases hji : j = i
    · subst hji
      rw [List.count_cons_self]
      push_cast
      by_cases hmem : j ∈ is
      · have hle := ih his.2 hmem
        rw [hp.weight_eq, hWu] at hle
        linarith
      · rw [List.count_eq_zero_of_not_mem hmem, Nat.cast_zero]
        have hle := hp.lowest u hu
        linarith
    · have hle := ih his.2 ((List.mem_cons.1 hj).resolve_left hji)
      rwa [hp.weight_ne hji, hWu, ← List.count_cons_of_ne (Ne.symm hji)] at hle

/-- Between two picks of `u`, another element is picked no more often than its steps fit into one of
`u`, and once more. -/
theorem count_between {is mid js : List ι} (h : Climb s lo hi W (is ++ u :: mid ++ js) W')
    (hmid : u ∉ mid) {j : ι} (hj : j ∈ mid) : (mid.count j - 1) * lo ≤ hi := by
  obtain ⟨V₁, h₁, -⟩ := of_append h
  obtain ⟨V₀, -, h₀⟩ := of_append h₁
  cases h₀ with
  | cons hp hl hh h₂ =>
    have hju : j ≠ u := fun heq => hmid (heq ▸ hj)
    have hle := h₂.count_le hp.mem hmid hj
    have hmem : j ∈ s := h₂.mem_of_mem hj
    rw [hp.weight_ne hju, hp.weight_eq] at hle
    have hlow := hp.lowest j hmem
    linarith

end Climb

end LowestFirst
