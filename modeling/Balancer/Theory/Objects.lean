import Mathlib

/-!
# Objects that are numbered as they are created

A list holds the objects of a system by their numbers: a new one is appended, and a step changes the
one with a given number. These are the ways in which an object can be found in the list after such a
step.
-/

namespace Objects

variable {α : Type} {as : List α} {a a' : α} {f : α → α} {i j : Nat}

/-- An object of a list to which one was appended is an old one or the new one. -/
theorem getElem?_concat_cases (h : (as ++ [a'])[i]? = some a) :
    i < as.length ∧ as[i]? = some a ∨ i = as.length ∧ a = a' := by
  rcases Nat.lt_trichotomy i as.length with hi | rfl | hi
  · rw [List.getElem?_append_left hi] at h
    exact .inl ⟨hi, h⟩
  · simp only [List.getElem?_concat_length, Option.some.injEq] at h
    exact .inr ⟨rfl, h.symm⟩
  · rw [List.getElem?_eq_none (by simp; omega)] at h
    cases h

/-- An object of a list in which one was changed is that one or is as it was. -/
theorem getElem?_modify_cases (h : (as.modify j f)[i]? = some a) :
    (i = j ∧ ∃ a₀, as[j]? = some a₀ ∧ a = f a₀) ∨ (i ≠ j ∧ as[i]? = some a) := by
  rw [List.getElem?_modify] at h
  by_cases hij : i = j
  · subst hij
    obtain ⟨a₀, ha₀, rfl⟩ := Option.map_eq_some_iff.1 h
    exact .inl ⟨rfl, a₀, ha₀, by simp⟩
  · obtain ⟨a₀, ha₀, rfl⟩ := Option.map_eq_some_iff.1 h
    exact .inr ⟨hij, by simpa [Ne.symm hij] using ha₀⟩

theorem getElem?_modify_self (h : as[i]? = some a) : (as.modify i f)[i]? = some (f a) := by
  simp [h]

theorem getElem?_modify_ne (hij : i ≠ j) : (as.modify j f)[i]? = as[i]? := by
  simp [Ne.symm hij]

/-- What the change leaves alone in every object can be found as before. -/
theorem exists_getElem?_modify {β : Type} {g : α → β} (hg : ∀ a, g (f a) = g a)
    (h : as[i]? = some a) : ∃ a', (as.modify j f)[i]? = some a' ∧ g a' = g a := by
  by_cases hij : i = j
  · subst hij
    exact ⟨f a, getElem?_modify_self h, hg a⟩
  · exact ⟨a, (getElem?_modify_ne hij).trans h, rfl⟩

theorem countP_modify {p : α → Bool} (h : as[i]? = some a) (ha : p a = false)
    (hfa : p (f a) = true) : (as.modify i f).countP p = as.countP p + 1 := by
  induction as generalizing i with
  | nil => cases h
  | cons b as ih =>
    cases i with
    | zero =>
      simp only [List.getElem?_cons_zero, Option.some.injEq] at h
      subst h
      simp [ha, hfa]
    | succ i =>
      simp only [List.getElem?_cons_succ] at h
      simp only [List.modify_succ_cons, List.countP_cons, ih h]
      omega

theorem countP_modify_same {p : α → Bool} (h : ∀ a, p (f a) = p a) :
    (as.modify i f).countP p = as.countP p := by
  induction as generalizing i with
  | nil => simp
  | cons b as ih =>
    cases i with
    | zero => simp [List.countP_cons, h]
    | succ i => simp [List.countP_cons, ih]

end Objects
