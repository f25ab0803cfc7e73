import Mathlib

/-!
# The first of the highest

A loop that keeps the element with the highest key, and replaces it by a higher one only, ends with
the first element of the highest key (`Highest.concat`). An element takes part in it for nothing but
itself: it is elected, or the election is the one without it (`First.erase`).
-/

namespace FirstHighest

variable {α K : Type*} [LinearOrder K] {f : α → K} {l l₁ l₂ : List α} {a b d : α}

/-- `a` is the first element of `l` with the highest key. -/
def First (f : α → K) (l : List α) (a : α) : Prop :=
  ∃ l₁ l₂, l = l₁ ++ a :: l₂ ∧ (∀ b ∈ l₁, f b < f a) ∧ ∀ b ∈ l₂, f b ≤ f a

/-- What is left of `l`: nothing if it is empty. -/
def Highest (f : α → K) (l : List α) : Option α → Prop
  | none => l = []
  | some a => First f l a

theorem First.mem (h : First f l a) : a ∈ l := by
  obtain ⟨l₁, l₂, rfl, -, -⟩ := h
  exact List.mem_append_right _ List.mem_cons_self

theorem First.le (h : First f l a) (hb : b ∈ l) : f b ≤ f a := by
  obtain ⟨l₁, l₂, rfl, hlt, hle⟩ := h
  rcases List.mem_append.1 hb with hb | hb
  · exact (hlt b hb).le
  · rcases List.mem_cons.1 hb with rfl | hb
    · exact le_rfl
    · exact hle b hb

/-- One turn of the loop. -/
theorem Highest.concat {o : Option α} (h : Highest f l o) (b : α) :
    Highest f (l ++ [b]) (if o.all (fun a => f a < f b) then some b else o) := by
  cases o with
  | none =>
    obtain rfl : l = [] := h
    exact ⟨[], [], rfl, by simp, by simp⟩
  | some a =>
    rw [Option.all_some]
    by_cases hab : f a < f b
    · rw [if_pos (decide_eq_true hab)]
      exact ⟨l, [], rfl, fun c hc => (First.le h hc).trans_lt hab, by simp⟩
    · rw [if_neg (by simpa using hab)]
      obtain ⟨l₁, l₂, rfl, hlt, hle⟩ := h
      exact ⟨l₁, l₂ ++ [b], by simp, hlt,
        List.forall_mem_append.2 ⟨hle, List.forall_mem_singleton.2 (not_lt.1 hab)⟩⟩

/-- Two places in one list. -/
theorem append_cons_eq {p s : List α} (h : l₁ ++ d :: l₂ = p ++ a :: s) :
    (∃ m, l₁ = p ++ a :: m ∧ s = m ++ d :: l₂) ∨ (l₁ = p ∧ d = a ∧ l₂ = s) ∨
      ∃ m, p = l₁ ++ d :: m ∧ l₂ = m ++ a :: s := by
  rcases List.append_eq_append_iff.1 h with ⟨m, rfl, hm⟩ | ⟨m, rfl, hm⟩
  · cases m with
    | nil =>
      obtain ⟨rfl, rfl⟩ := List.cons.inj hm
      exact .inr (.inl ⟨(List.append_nil _).symm, rfl, rfl⟩)
    | cons c m =>
      obtain ⟨rfl, rfl⟩ := List.cons.inj hm
      exact .inr (.inr ⟨m, rfl, rfl⟩)
  · cases m with
    | nil =>
      obtain ⟨rfl, rfl⟩ := List.cons.inj hm
      exact .inr (.inl ⟨List.append_nil _, rfl, rfl⟩)
    | cons c m =>
      obtain ⟨rfl, rfl⟩ := List.cons.inj hm
      exact .inl ⟨m, rfl, rfl⟩

/-- An element in the middle is elected, or the election is the one without it. -/
theorem First.erase (h : First f (l₁ ++ d :: l₂) a) :
    (a = d ∧ (∀ b ∈ l₁, f b < f d) ∧ ∀ b ∈ l₂, f b ≤ f d) ∨
      First f (l₁ ++ l₂) a ∧ ((∃ b ∈ l₁, f d ≤ f b) ∨ ∃ b ∈ l₂, f d < f b) := by
  obtain ⟨p, s, heq, hlt, hle⟩ := h
  rcases append_cons_eq heq with ⟨m, rfl, rfl⟩ | ⟨rfl, rfl, rfl⟩ | ⟨m, rfl, rfl⟩
  · -- it stands behind the one that is elected
    refine .inr ⟨⟨p, m ++ l₂, by simp, hlt, fun b hb => hle b ?_⟩,
      .inl ⟨a, by simp, hle d (by simp)⟩⟩
    rw [List.mem_append] at hb ⊢
    exact hb.imp id (List.mem_cons_of_mem _)
  · exact .inl ⟨rfl, hlt, hle⟩
  · refine .inr ⟨⟨l₁ ++ m, s, by simp, fun b hb => hlt b ?_, hle⟩,
      .inr ⟨a, by simp, hlt d (by simp)⟩⟩
    rw [List.mem_append] at hb ⊢
    exact hb.imp id (List.mem_cons_of_mem _)

end FirstHighest
