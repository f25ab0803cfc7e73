import Mathlib

/-!
# Frames that announce their size

A stream is cut into frames by what each frame announces at its head. A sequence of frames is
recovered from its concatenation exactly if every frame announces its own length
(`split_flatten_iff`).
-/

namespace Framing

variable {α : Type*} (size : List α → ℕ)

/-- Cut a stream: `size` is what its head announces as the length of the next frame. -/
def split (xs : List α) : Option (List (List α)) :=
  if xs.isEmpty then some []
  else if 0 < size xs ∧ size xs ≤ xs.length then
    (split (xs.drop (size xs))).map (xs.take (size xs) :: ·)
  else none
termination_by xs.length
decreasing_by rw [List.length_drop]; omega

/-- What is announced is in the first `k` elements. -/
def InHead (k : ℕ) : Prop := ∀ xs ys : List α, k ≤ xs.length → size (xs ++ ys) = size xs

variable {size} {f xs : List α} {fs : List (List α)} {k : ℕ}

@[simp] theorem split_nil : split size [] = some [] := by
  rw [split]
  rfl

theorem split_append (hf : f ≠ []) (hs : size (f ++ xs) = f.length) :
    split size (f ++ xs) = (split size xs).map (f :: ·) := by
  have hpos : 0 < f.length := List.length_pos_iff.2 hf
  rw [split, if_neg (by simp [hf]), hs, if_pos ⟨hpos, by simp⟩, List.drop_left, List.take_left]

theorem size_eq_of_split_append (hf : f ≠ []) (h : split size (f ++ xs) = some (f :: fs)) :
    size (f ++ xs) = f.length := by
  rw [split, if_neg (by simp [hf])] at h
  split at h
  · next hs =>
    obtain ⟨gs, -, hgs⟩ := Option.map_eq_some_iff.1 h
    have hlen := congrArg List.length (List.cons.inj hgs).1
    rwa [List.length_take, Nat.min_eq_left hs.2] at hlen
  · cases h

/-- The frames come back exactly if each of them announces its own length. -/
theorem split_flatten_iff (hsize : InHead size k) (hk : 0 < k) (hfs : ∀ f ∈ fs, k ≤ f.length) :
    split size fs.flatten = some fs ↔ ∀ f ∈ fs, size f = f.length := by
  induction fs with
  | nil => simp
  | cons f fs ih =>
    have hf := hfs f List.mem_cons_self
    have hne : f ≠ [] := List.length_pos_iff.1 (hk.trans_le hf)
    have hih := ih fun g hg => hfs g (List.mem_cons_of_mem f hg)
    rw [List.flatten_cons, List.forall_mem_cons, ← hih]
    constructor
    · intro h
      have hs := size_eq_of_split_append hne h
      refine ⟨(hsize _ _ hf).symm.trans hs, ?_⟩
      rw [split_append hne hs] at h
      obtain ⟨gs, hgs, heq⟩ := Option.map_eq_some_iff.1 h
      exact hgs.trans (congrArg some (List.cons.inj heq).2)
    · rintro ⟨hs, h⟩
      rw [split_append hne ((hsize _ _ hf).trans hs), h, Option.map_some]

end Framing
