import Mathlib

/-!
# Runs of systems that react to events

A `System` makes a step for every event; an event that can not happen in a state has no step. A run
is a list of events, and what holds along a run is said about its prefixes: `Always P` about the
states that they lead to, `EachStep C` about every event in the state where it happens.

Most properties of a run fail at one kind of step. `always_iff_eachStep` is the rule for them: if
one step keeps the property exactly when a condition on the state and the event holds, then a run
keeps it exactly when all of its steps meet the condition.

The last section is about the loop of one coroutine, which runs until it is left or until it hands
control back.
-/

namespace Runs

structure System (σ ε : Type) where
  step : σ → ε → Option σ

namespace System

variable {σ ε : Type} (A : System σ ε)

def run : σ → List ε → Option σ
  | s, [] => some s
  | s, e :: es => (A.step s e).bind (run · es)

/-- `P` holds in every state of the run. -/
def Always (P : σ → Prop) (s : σ) (es : List ε) : Prop :=
  ∀ pre s', pre <+: es → A.run s pre = some s' → P s'

/-- `C` holds of every event of the run, in the state where it happens. -/
def EachStep (C : σ → ε → Prop) (s : σ) (es : List ε) : Prop :=
  ∀ pre e s', pre ++ [e] <+: es → A.run s pre = some s' → C s' e

variable {A} {P I : σ → Prop} {C : σ → ε → Prop} {s s' : σ} {e : ε} {es : List ε}

@[simp] theorem run_nil : A.run s [] = some s := rfl

theorem run_cons (h : A.step s e = some s') : A.run s (e :: es) = A.run s' es := by
  simp [run, h]

theorem run_cons_isSome (h : (A.run s (e :: es)).isSome) :
    ∃ s', A.step s e = some s' ∧ (A.run s' es).isSome := by
  cases hs : A.step s e with
  | none => simp [run, hs] at h
  | some s' => exact ⟨s', rfl, by simpa [run, hs] using h⟩

theorem run_append (s : σ) (es fs : List ε) :
    A.run s (es ++ fs) = (A.run s es).bind (A.run · fs) := by
  induction es generalizing s with
  | nil => rfl
  | cons e es ih =>
    cases hs : A.step s e with
    | none => simp [run, hs]
    | some s' => rw [List.cons_append, run_cons hs, run_cons hs, ih]

theorem run_concat (s : σ) (es : List ε) (e : ε) :
    A.run s (es ++ [e]) = (A.run s es).bind (A.step · e) := by
  rw [run_append]
  cases A.run s es with
  | none => rfl
  | some s' =>
    show (A.step s' e).bind (A.run · []) = A.step s' e
    cases A.step s' e <;> rfl

/-! ### One step at a time -/

theorem always_nil : A.Always P s [] ↔ P s := by
  constructor
  · intro h
    exact h [] s List.prefix_rfl rfl
  · intro h pre s' hpre hrun
    rw [List.prefix_nil.1 hpre] at hrun
    cases hrun
    exact h

theorem always_cons (hs : A.step s e = some s') :
    A.Always P s (e :: es) ↔ P s ∧ A.Always P s' es := by
  constructor
  · intro h
    refine ⟨h [] s List.nil_prefix rfl, fun pre s₁ hpre hrun => ?_⟩
    exact h (e :: pre) s₁ (List.cons_prefix_cons.2 ⟨rfl, hpre⟩) (by rwa [run_cons hs])
  · rintro ⟨h, h'⟩ pre s₁ hpre hrun
    cases pre with
    | nil =>
      cases hrun
      exact h
    | cons e' pre =>
      obtain ⟨rfl, hpre'⟩ := List.cons_prefix_cons.1 hpre
      rw [run_cons hs] at hrun
      exact h' pre s₁ hpre' hrun

theorem eachStep_nil : A.EachStep C s [] := by
  intro pre e s' hpre
  simp at hpre

theorem eachStep_cons (hs : A.step s e = some s') :
    A.EachStep C s (e :: es) ↔ C s e ∧ A.EachStep C s' es := by
  constructor
  · intro h
    refine ⟨h [] e s (List.cons_prefix_cons.2 ⟨rfl, List.nil_prefix⟩) rfl,
      fun pre e' s₁ hpre hrun => ?_⟩
    exact h (e :: pre) e' s₁ (List.cons_prefix_cons.2 ⟨rfl, hpre⟩) (by rwa [run_cons hs])
  · rintro ⟨h, h'⟩ pre e' s₁ hpre hrun
    cases pre with
    | nil =>
      obtain ⟨rfl, -⟩ := List.cons_prefix_cons.1 hpre
      cases hrun
      exact h
    | cons e₀ pre =>
      obtain ⟨rfl, hpre'⟩ := List.cons_prefix_cons.1 hpre
      rw [run_cons hs] at hrun
      exact h' pre e' s₁ hpre' hrun

theorem EachStep.head (h : A.EachStep C s (e :: es)) : C s e :=
  h [] e s (List.cons_prefix_cons.2 ⟨rfl, List.nil_prefix⟩) rfl

/-- A run that ends where an event can not happen. -/
theorem eachStep_cons_of_none (hs : A.step s e = none) : A.EachStep C s (e :: es) ↔ C s e := by
  refine ⟨EachStep.head, fun h pre e' s₁ hpre hrun => ?_⟩
  cases pre with
  | nil =>
    obtain ⟨rfl, -⟩ := List.cons_prefix_cons.1 hpre
    cases hrun
    exact h
  | cons e₀ pre =>
    obtain ⟨rfl, -⟩ := List.cons_prefix_cons.1 hpre
    simp [run, hs] at hrun

instance decidableEachStep [∀ s e, Decidable (C s e)] (s : σ) :
    (es : List ε) → Decidable (A.EachStep C s es)
  | [] => .isTrue eachStep_nil
  | e :: es =>
    match hs : A.step s e with
    | none => decidable_of_iff _ (eachStep_cons_of_none hs).symm
    | some s' =>
      have := decidableEachStep s' es
      decidable_of_iff _ (eachStep_cons hs).symm

theorem Always.head (h : A.Always P s es) : P s :=
  h [] s List.nil_prefix rfl

theorem Always.last (h : A.Always P s es) (hrun : A.run s es = some s') : P s' :=
  h es s' List.prefix_rfl hrun

theorem run_initial {pre : List ε} (hpre : pre <+: es) (hrun : (A.run s es).isSome) :
    ∃ s', A.run s pre = some s' := by
  obtain ⟨post, rfl⟩ := hpre
  rw [run_append] at hrun
  exact Option.isSome_iff_exists.1 (Option.isSome_of_isSome_bind hrun)

/-- A run around one of its events. -/
theorem run_around {pre : List ε} {s₁ s₂ : σ} (hpre : pre ++ [e] <+: es)
    (hs : A.run s pre = some s₁) (hrun : A.run s es = some s₂) :
    ∃ s' post, A.step s₁ e = some s' ∧ A.run s (pre ++ [e]) = some s' ∧
      A.run s' post = some s₂ := by
  obtain ⟨post, rfl⟩ := hpre
  rw [run_append] at hrun
  have hstep : A.run s (pre ++ [e]) = A.step s₁ e := by rw [run_concat, hs]; rfl
  cases hs' : A.step s₁ e with
  | none => simp [hstep, hs'] at hrun
  | some s' =>
    rw [hstep, hs'] at hrun
    exact ⟨s', post, rfl, hstep.trans hs', hrun⟩

/-! ### Rules for whole runs -/

/-- What the events so far say about the state that they lead to. -/
theorem run_history {H : List ε → σ → Prop} (hnil : H [] s)
    (hstep : ∀ pre s₁ e s', A.run s pre = some s₁ → H pre s₁ → A.step s₁ e = some s' →
      H (pre ++ [e]) s') (hrun : A.run s es = some s') : H es s' := by
  induction es using List.reverseRecOn generalizing s' with
  | nil =>
    cases hrun
    exact hnil
  | append_singleton es e ih =>
    rw [run_concat] at hrun
    obtain ⟨s₁, hs₁, hs'⟩ := Option.bind_eq_some_iff.1 hrun
    exact hstep es s₁ e s' hs₁ (ih hs₁) hs'

/-- An invariant that is kept by the steps that meet `C`. -/
theorem EachStep.always (hC : A.EachStep C s es) (hrun : (A.run s es).isSome)
    (hstep : ∀ s e s', I s → C s e → A.step s e = some s' → I s') (hI : I s) : A.Always I s es := by
  induction es generalizing s with
  | nil => exact always_nil.2 hI
  | cons e es ih =>
    obtain ⟨s', hs, hrun⟩ := run_cons_isSome hrun
    obtain ⟨hc, hC⟩ := (eachStep_cons hs).1 hC
    exact (always_cons hs).2 ⟨hI, ih hC hrun (hstep s e s' hI hc hs)⟩

/-- An invariant that is kept by the steps that lead to states with `P`. -/
theorem Always.invariant (hP : A.Always P s es) (hrun : (A.run s es).isSome)
    (hstep : ∀ s e s', I s → P s' → A.step s e = some s' → I s') (hI : I s) : A.Always I s es := by
  refine EachStep.always (C := fun s e => ∀ s', A.step s e = some s' → P s') ?_ hrun ?_ hI
  · intro pre e s₁ hpre hs s' hs'
    exact hP _ s' hpre (by rw [run_concat, hs]; exact hs')
  · exact fun s e s' hI hP hs => hstep s e s' hI (hP s' hs) hs

/-- An invariant that every step keeps. -/
theorem always_of_invariant (hrun : (A.run s es).isSome)
    (hstep : ∀ s e s', I s → A.step s e = some s' → I s') (hI : I s) : A.Always I s es :=
  EachStep.always (C := fun _ _ => True) (fun _ _ _ _ _ => trivial) hrun
    (fun s e s' h _ => hstep s e s' h) hI

/-- What an invariant says about the events that can happen. -/
theorem Always.eachStep (h : A.Always I s es) (hrun : (A.run s es).isSome)
    (hC : ∀ s e s', I s → A.step s e = some s' → C s e) : A.EachStep C s es := by
  intro pre e s₁ hpre hs
  obtain ⟨s₂, hs₂⟩ := Option.isSome_iff_exists.1 hrun
  obtain ⟨s', -, hstep, -, -⟩ := run_around hpre hs hs₂
  exact hC s₁ e s' (h pre s₁ ((List.prefix_append pre [e]).trans hpre) hs) hstep

theorem Always.eachStep_iff {D : σ → ε → Prop} (h : A.Always I s es)
    (hCD : ∀ s e, I s → (C s e ↔ D s e)) : A.EachStep C s es ↔ A.EachStep D s es := by
  have hI : ∀ pre e s', pre ++ [e] <+: es → A.run s pre = some s' → I s' := by
    intro pre e s' hpre
    exact h pre s' ((List.prefix_append pre [e]).trans hpre)
  constructor
  · intro hC pre e s' hpre hrun
    exact (hCD s' e (hI pre e s' hpre hrun)).1 (hC pre e s' hpre hrun)
  · intro hD pre e s' hpre hrun
    exact (hCD s' e (hI pre e s' hpre hrun)).2 (hD pre e s' hpre hrun)

/-- Two systems, the first of which follows the second through `f`. -/
theorem run_of_simulation {τ δ : Type} {B : System τ δ} (f : σ → τ)
    (h : ∀ s e s', A.step s e = some s' → ∃ d, B.step (f s) d = some (f s'))
    (hrun : A.run s es = some s') : ∃ ds, B.run (f s) ds = some (f s') := by
  induction es generalizing s with
  | nil =>
    cases hrun
    exact ⟨[], rfl⟩
  | cons e es ih =>
    obtain ⟨s₁, hs₁, -⟩ := run_cons_isSome (Option.isSome_iff_exists.2 ⟨s', hrun⟩)
    rw [run_cons hs₁] at hrun
    obtain ⟨d, hd⟩ := h s e s₁ hs₁
    obtain ⟨ds, hds⟩ := ih hrun
    exact ⟨d :: ds, (run_cons hd).trans hds⟩

/-- A property that one step keeps exactly when `C` holds of it; `I` may count the events that are
left. -/
theorem always_iff_eachStep_of_left {I : Nat → σ → Prop} (hrun : (A.run s es).isSome)
    (hinv : ∀ n s e s', I (n + 1) s → A.step s e = some s' → I n s')
    (hstep : ∀ n s e s', I (n + 1) s → P s → A.step s e = some s' → (P s' ↔ C s e))
    (hI : I es.length s) (hP : P s) : A.Always P s es ↔ A.EachStep C s es := by
  induction es generalizing s with
  | nil => exact iff_of_true (always_nil.2 hP) eachStep_nil
  | cons e es ih =>
    obtain ⟨s', hs, hrun⟩ := run_cons_isSome hrun
    have hs' := hstep es.length s e s' hI hP hs
    rw [always_cons hs, eachStep_cons hs]
    constructor
    · rintro ⟨-, h⟩
      exact ⟨hs'.1 h.head, (ih hrun (hinv es.length s e s' hI hs) h.head).1 h⟩
    · rintro ⟨hc, h⟩
      exact ⟨hP, (ih hrun (hinv es.length s e s' hI hs) (hs'.2 hc)).2 h⟩

theorem always_iff_eachStep (hrun : (A.run s es).isSome)
    (hinv : ∀ s e s', I s → A.step s e = some s' → I s')
    (hstep : ∀ s e s', I s → P s → A.step s e = some s' → (P s' ↔ C s e)) (hI : I s) (hP : P s) :
    A.Always P s es ↔ A.EachStep C s es :=
  always_iff_eachStep_of_left (I := fun _ => I) hrun (fun _ => hinv) (fun _ => hstep) hI hP

end System

/-! ### The loop of a coroutine -/

/-- One turn of a loop: the loop is left, its head is reached again, or control is handed back. -/
inductive Turn (ρ σ : Type) where
  | exit (r : ρ) (s : σ)
  | again (s : σ)
  | switch (s : σ)
  deriving DecidableEq

/-- Where a coroutine stands in a loop that waits: at its head, or where it waits. -/
inductive Position where
  | head
  | waiting
  deriving DecidableEq, Repr

variable {ρ σ : Type}

/-- At most `n` turns in a row, without handing control back in between. -/
def turns (body : σ → Turn ρ σ) : Nat → σ → Turn ρ σ
  | 0, s => .again s
  | n + 1, s =>
    match body s with
    | .again s => turns body n s
    | t => t

/-- The loop is left after finitely many turns, with nothing else running in between. -/
def Leaves (body : σ → Turn ρ σ) (s : σ) : Prop := ∃ n r s', turns body n s = .exit r s'

/-- After finitely many turns the loop is left or control is handed back. -/
def HandsBack (body : σ → Turn ρ σ) (s : σ) : Prop := ∃ n, ∀ s', turns body n s ≠ .again s'

variable {body : σ → Turn ρ σ} {s s' : σ}

theorem turns_again (h : body s = .again s') (n : Nat) :
    turns body (n + 1) s = turns body n s' := by
  simp [turns, h]

/-- Turns beyond the last one make no difference. -/
theorem turns_mono {n m : Nat} {r : ρ} (h : turns body n s = .exit r s') (hle : n ≤ m) :
    turns body m s = .exit r s' := by
  induction n generalizing m s with
  | zero => cases h
  | succ n ih =>
    cases m with
    | zero => exact absurd hle (Nat.not_succ_le_zero n)
    | succ m =>
      cases hb : body s with
      | again s₁ =>
        rw [turns_again hb] at h ⊢
        exact ih h (Nat.le_of_succ_le_succ hle)
      | exit r₁ s₁ =>
        simp only [turns, hb] at h ⊢
        exact h
      | switch s₁ =>
        simp only [turns, hb] at h
        cases h

theorem leaves_of_exit {r : ρ} (h : body s = .exit r s') : Leaves body s :=
  ⟨1, r, s', by simp [turns, h]⟩

theorem leaves_again (h : body s = .again s') : Leaves body s ↔ Leaves body s' := by
  constructor
  · rintro ⟨n, r, s₁, hn⟩
    cases n with
    | zero => cases hn
    | succ n =>
      rw [turns_again h] at hn
      exact ⟨n, r, s₁, hn⟩
  · rintro ⟨n, r, s₁, hn⟩
    exact ⟨n + 1, r, s₁, by rwa [turns_again h]⟩

theorem handsBack_of_body (h : ∀ s', body s ≠ .again s') : HandsBack body s := by
  refine ⟨1, fun s' h1 => h s' ?_⟩
  unfold turns at h1
  split at h1
  · next hb => exact absurd hb (h _)
  · exact h1

theorem handsBack_again (h : body s = .again s') : HandsBack body s ↔ HandsBack body s' := by
  constructor
  · rintro ⟨n, hn⟩
    cases n with
    | zero => exact absurd rfl (hn s)
    | succ n =>
      rw [turns_again h] at hn
      exact ⟨n, hn⟩
  · rintro ⟨n, hn⟩
    exact ⟨n + 1, by rwa [turns_again h]⟩

/-- A loop whose head comes back to itself is never left. -/
theorem turns_of_stuck (h : body s = .again s) (n : Nat) : turns body n s = .again s := by
  induction n with
  | zero => rfl
  | succ n ih => rw [turns_again h, ih]

theorem not_leaves_of_stuck (h : body s = .again s) : ¬Leaves body s := by
  rintro ⟨n, r, s', hn⟩
  rw [turns_of_stuck h] at hn
  cases hn

/-- A loop is never left from states that it goes on to states of the same kind from. -/
theorem not_leaves_of_invariant (I : σ → Prop) (hstep : ∀ s, I s → ∃ s', body s = .again s' ∧ I s')
    (hI : I s) : ¬Leaves body s := by
  rintro ⟨n, r, s', hn⟩
  induction n generalizing s with
  | zero => cases hn
  | succ n ih =>
    obtain ⟨s₁, hb, hI₁⟩ := hstep s hI
    rw [turns_again hb] at hn
    exact ih hI₁ hn

/-- A loop that reads a sequence, at position `pos s` of it, and goes on to the next position unless
it finds an element with `stops`. -/
theorem handsBack_iff_exists (I : σ → Prop) (pos : σ → Nat) (stops : Nat → Prop)
    (hstop : ∀ s, I s → stops (pos s) → ∀ s', body s ≠ .again s')
    (hgo : ∀ s, I s → ¬stops (pos s) → ∃ s', body s = .again s' ∧ pos s' = pos s + 1 ∧ I s')
    (hI : I s) : HandsBack body s ↔ ∃ n, pos s ≤ n ∧ stops n := by
  constructor
  · rintro ⟨n, hn⟩
    induction n generalizing s with
    | zero => exact absurd rfl (hn s)
    | succ n ih =>
      by_cases hs : stops (pos s)
      · exact ⟨pos s, Nat.le_refl _, hs⟩
      · obtain ⟨s', hb, hpos, hI'⟩ := hgo s hI hs
        rw [turns_again hb] at hn
        obtain ⟨m, hle, hm⟩ := ih hI' hn
        exact ⟨m, by omega, hm⟩
  · rintro ⟨n, hle, hn⟩
    induction hd : n - pos s generalizing s with
    | zero =>
      have heq : n = pos s := by omega
      exact handsBack_of_body (hstop s hI (heq ▸ hn))
    | succ d ih =>
      by_cases hs : stops (pos s)
      · exact handsBack_of_body (hstop s hI hs)
      · obtain ⟨s', hb, hpos, hI'⟩ := hgo s hI hs
        exact (handsBack_again hb).2 (ih hI' (by omega) (by omega))

end Runs
