import Mathlib

/-!
# Computations that may fail

What a result of a composed computation says about its parts, for `Except` with any type of errors.
-/

namespace Fallible

variable {ε α β σ : Type} {x : Except ε α}

@[simp] theorem ok_bind (a : α) (f : α → Except ε β) : ((Except.ok a : Except ε α) >>= f) = f a :=
  rfl

theorem bind_eq_ok {f : α → Except ε β} {r : β} :
    (x >>= f) = .ok r ↔ ∃ a, x = .ok a ∧ f a = .ok r := by
  constructor
  · intro h
    cases x with
    | error e => cases h
    | ok a => exact ⟨a, rfl, h⟩
  · rintro ⟨a, rfl, h⟩
    exact h

theorem map_eq_ok {f : α → β} {r : β} : x.map f = .ok r ↔ ∃ a, x = .ok a ∧ f a = r := by
  constructor
  · intro h
    cases x with
    | error e => cases h
    | ok a => exact ⟨a, rfl, Except.ok.inj h⟩
  · rintro ⟨a, rfl, rfl⟩
    rfl

theorem toOption_eq_some {a : α} : x.toOption = some a ↔ x = .ok a := by
  cases x <;> simp [Except.toOption]

/-- A map of a list through a function that does not fail on it. -/
theorem mapM_eq {f : α → Except ε β} {g : α → β} {l : List α} (h : ∀ a ∈ l, f a = .ok (g a)) :
    l.mapM f = .ok (l.map g) := by
  induction l with
  | nil => rfl
  | cons a l ih =>
    rw [List.mapM_cons, h a List.mem_cons_self, ih (List.forall_mem_cons.1 h).2]
    rfl

variable {step : σ → α → Except ε σ} {I : σ → Prop} {l : List α} {s s' : σ}

/-- A loop keeps what every turn that does not fail keeps. -/
theorem foldlM_keeps (hstep : ∀ s a s', I s → step s a = .ok s' → I s') (hI : I s)
    (h : l.foldlM step s = .ok s') : I s' := by
  induction l generalizing s with
  | nil =>
    cases h
    exact hI
  | cons a l ih =>
    rw [List.foldlM_cons] at h
    obtain ⟨s₁, hs₁, h⟩ := bind_eq_ok.1 h
    exact ih (hstep s a s₁ hI hs₁) h

/-- A loop does not fail when an invariant keeps every turn from failing. -/
theorem foldlM_succeeds (hstep : ∀ s, ∀ a ∈ l, I s → ∃ s', step s a = .ok s' ∧ I s') (hI : I s) :
    ∃ s', l.foldlM step s = .ok s' ∧ I s' := by
  induction l generalizing s with
  | nil => exact ⟨s, rfl, hI⟩
  | cons a l ih =>
    obtain ⟨s₁, hs₁, hI₁⟩ := hstep s a List.mem_cons_self hI
    obtain ⟨s', hs', hI'⟩ := ih (fun s a ha => hstep s a (List.mem_cons_of_mem _ ha)) hI₁
    exact ⟨s', by rw [List.foldlM_cons, hs₁]; exact hs', hI'⟩

end Fallible
