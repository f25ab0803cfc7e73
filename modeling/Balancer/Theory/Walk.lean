import Mathlib

/-!
# Walking along cumulative weights

An element is drawn by adding up weights until the sum is large enough. `enough` is the test on the
sum.
-/

namespace Walk

variable {K : Type*} [AddCommMonoid K] (enough : K → Prop) [DecidablePred enough]

/-- The place of the first weight at which the sum is enough. -/
def walk (acc : K) : List K → Option ℕ
  | [] => none
  | w :: ws => if enough (acc + w) then some 0 else (walk (acc + w) ws).map (· + 1)

variable {enough} {acc : K} {ws : List K} {i : ℕ}

/-- The walk ends if all weights together are enough. -/
theorem exists_walk (hne : ws ≠ []) (h : enough (acc + ws.sum)) :
    ∃ i, walk enough acc ws = some i := by
  induction ws generalizing acc with
  | nil => exact absurd rfl hne
  | cons w ws ih =>
    rw [walk]
    by_cases hw : enough (acc + w)
    · exact ⟨0, if_pos hw⟩
    · rw [if_neg hw]
      have hws : ws ≠ [] := by
        rintro rfl
        rw [List.sum_singleton] at h
        exact hw h
      obtain ⟨i, hi⟩ := ih hws (by rwa [List.sum_cons, ← add_assoc] at h)
      exact ⟨i + 1, by rw [hi, Option.map_some]⟩

theorem walk_lt (h : walk enough acc ws = some i) : i < ws.length := by
  induction ws generalizing acc i with
  | nil => cases h
  | cons w ws ih =>
    rw [walk] at h
    split at h
    · cases h
      exact Nat.succ_pos _
    · obtain ⟨j, hj, rfl⟩ := Option.map_eq_some_iff.1 h
      exact Nat.succ_lt_succ (ih hj)

end Walk
