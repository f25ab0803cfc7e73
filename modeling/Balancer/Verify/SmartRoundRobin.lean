import Balancer.Modules.Balancer.SmartRR
import Balancer.Theory.LowestFirst

/-!
# The weights of smart round robin

Whatever the requests do to the states, a pick raises the lightest backend by at least 1 and at most
64, as long as a `double` can tell the weights apart. Above `2 ^ 53` it can not: a step of 1 is
lost, and the backend that makes it stays the lightest (`smartRoundRobin_flood`).
-/

namespace Balancer

open Runs.System
open Function (update update_of_ne update_self)

namespace SmartRR

/-! ### One pick -/

namespace TBackEnd

theorem mul_bounds (b : TBackEnd) : 1 ≤ b.mul ∧ b.mul ≤ 64 := by
  unfold mul
  split_ifs <;> decide

theorem nearest_step (b : TBackEnd) : Rounding.nearest 53 (weightStep * b.mul) = b.mul := by
  rw [weightStep, Nat.one_mul]
  exact Rounding.nearest_of_lt (b.mul_bounds.2.trans_lt (by decide))

/-- A weight that is still below `2 ^ 53` is exact. -/
theorem incWeight_of_lt {b : TBackEnd} {w : ℕ} (h : b.incWeight w < 2 ^ 53) :
    b.incWeight w = w + b.mul := by
  rw [incWeight, nearest_step] at h ⊢
  exact Rounding.nearest_eq_of_lt (by decide) h

end TBackEnd

namespace TTrace

/-- The policy has `n` backends, all of them in the tree. -/
structure Held (n : Nat) (t : TTrace) : Prop where
  size : t.pool.size = n
  holds : t.pool.servers.Holds n

variable {n : Nat} {t t' : TTrace} {e : TEvent}

/-- `DoNext` takes the first backend out of the tree. -/
theorem Held.doNext (h : Held n t) (hn : 0 < n) :
    ∃ b rest t', system.step t .doNext = some t' ∧ Held n t' ∧ b < n ∧
      (∀ c < n, t.pool.servers.weight b ≤ t.pool.servers.weight c) ∧ t'.picked = t.picked ++ [b] ∧
      t'.pool.servers.address = t.pool.servers.address ∧
      t'.pool.servers.weight = update t.pool.servers.weight b
        ((t.pool.backEnds b).updateState.incWeight (t.pool.servers.weight b)) ∧
      t'.pool.backEnds = update t.pool.backEnds b (t.pool.backEnds b).updateState ∧
      t.pool.servers.tree.toList = b :: rest ∧
      t'.pool.servers.tree.toList =
        TAvlTree.insert (weightLt t.pool.servers.address t'.pool.servers.weight) b rest := by
  obtain ⟨b, rest, s', hnext, hholds, hb, hlow, haddress, hweight, hs, hs'⟩ :=
    h.holds.next hn fun b w => (t.pool.backEnds b).updateState.incWeight w
  have hstep : t.pool.doNext = some (b, { t.pool with
      servers := s', backEnds := update t.pool.backEnds b (t.pool.backEnds b).updateState }) := by
    rw [TBackEnds.doNext, hnext, Option.map_some]
  exact ⟨b, rest, _, (congrArg (Option.map _) hstep).trans (Option.map_some ..), ⟨h.size, hholds⟩,
    hb, hlow, rfl, haddress, hweight, rfl, hs, hs'⟩

theorem Held.onRequest (h : Held n t) {b : Nat} (hb : b < n) (f : TBackEnd → TBackEnd) :
    t.pool.onRequest b f =
      some { t.pool with backEnds := update t.pool.backEnds b (f (t.pool.backEnds b)) } :=
  if_pos (h.size ▸ hb)

/-- What one event does to the weights and to the picks. -/
theorem Held.step (h : Held n t) (he : e.Within n) :
    ∃ t', system.step t e = some t' ∧ Held n t' ∧
      ((t'.picked = t.picked ∧ t'.pool.servers.weight = t.pool.servers.weight) ∨
        ∃ b < n, ∃ f : TBackEnd, (∀ c < n, t.pool.servers.weight b ≤ t.pool.servers.weight c) ∧
          t'.picked = t.picked ++ [b] ∧ t'.pool.servers.weight =
            update t.pool.servers.weight b (f.incWeight (t.pool.servers.weight b))) := by
  cases e with
  | doNext =>
    obtain ⟨b, rest, t', hstep, hheld, hb, hlow, hpicked, -, hweight, -, -, -⟩ := h.doNext he
    exact ⟨t', hstep, hheld, .inr ⟨b, hb, _, hlow, hpicked, hweight⟩⟩
  | onCompleteRequest b =>
    exact ⟨_, congrArg (Option.map _) (h.onRequest he _), ⟨h.size, h.holds⟩, .inl ⟨rfl, rfl⟩⟩
  | onFailRequest b =>
    exact ⟨_, congrArg (Option.map _) (h.onRequest he _), ⟨h.size, h.holds⟩, .inl ⟨rfl, rfl⟩⟩

/-- Events that happen are about backends of the policy. -/
theorem Held.within (h : Held n t) (hs : system.step t e = some t') : e.Within n := by
  have honRequest : ∀ {b f p}, t.pool.onRequest b f = some p → b < n := by
    intro b f p hp
    rw [TBackEnds.onRequest, h.size] at hp
    by_contra hb
    rw [if_neg hb] at hp
    cases hp
  cases e with
  | doNext =>
    rcases Nat.eq_zero_or_pos n with rfl | hn
    · have hhead : t.pool.servers.tree.head = none := by
        rw [h.holds.valid.head, List.Perm.eq_nil h.holds.perm, List.head?_nil]
      obtain ⟨r, hr, -⟩ := Option.map_eq_some_iff.1 hs
      rw [TBackEnds.doNext, TServers.next, hhead] at hr
      cases hr
    · exact hn
  | onCompleteRequest b =>
    obtain ⟨p, hp, -⟩ := Option.map_eq_some_iff.1 hs
    exact honRequest hp
  | onFailRequest b =>
    obtain ⟨p, hp, -⟩ := Option.map_eq_some_iff.1 hs
    exact honRequest hp

theorem Held.exists_run (h : Held n t) {es : List TEvent} (hes : ∀ e ∈ es, e.Within n) :
    ∃ t', system.run t es = some t' := by
  induction es generalizing t with
  | nil => exact ⟨t, rfl⟩
  | cons e es ih =>
    obtain ⟨t₁, hstep, h₁, -⟩ := h.step (hes e List.mem_cons_self)
    obtain ⟨t', hrun⟩ := ih h₁ (List.forall_mem_cons.1 hes).2
    exact ⟨t', (run_cons hstep).trans hrun⟩

/-! ### The beginning -/

theorem held_configured (address : Nat ↪ Nat) (descrs : List TBackEndDescriptor) :
    Held descrs.length (configured address descrs) ∧
      ∀ b < descrs.length, (configured address descrs).pool.servers.weight b = 1 := by
  induction descrs using List.reverseRecOn with
  | nil => exact ⟨⟨rfl, TServers.holds_empty _ _⟩, fun b hb => absurd hb (Nat.not_lt_zero b)⟩
  | append_singleton descrs d ih =>
    obtain ⟨⟨hsize, hholds⟩, hweight⟩ := ih
    have hpool : (configured address (descrs ++ [d])).pool =
        (configured address descrs).pool.add d :=
      List.foldl_append
    rw [List.length_append, List.length_singleton]
    refine ⟨⟨?_, ?_⟩, fun b hb => ?_⟩
    · rw [hpool, ← hsize]
      rfl
    · rw [hpool, TBackEnds.add, hsize]
      exact hholds.add 1
    · rw [hpool, TBackEnds.add, hsize]
      show update _ descrs.length 1 b = 1
      rcases Nat.lt_succ_iff_lt_or_eq.1 hb with hb | rfl
      · rw [update_of_ne (Nat.ne_of_lt hb), hweight b hb]
      · rw [update_self]

/-! ### Weights that a double can tell apart -/

/-- All weights are below `2 ^ 53`. -/
def Exact (n : Nat) (t : TTrace) : Prop := ∀ b < n, t.pool.servers.weight b < 2 ^ 53

/-- The weight of a backend as a number. -/
def weight (t : TTrace) (b : Nat) : ℚ := t.pool.servers.weight b

/-- The picks so far have climbed from the weights `W`. -/
structure Climbed (n : Nat) (W : Nat → ℚ) (t : TTrace) : Prop where
  held : Held n t
  climb : LowestFirst.Climb (Finset.range n) 1 64 W t.picked t.weight

theorem Climbed.step {W : Nat → ℚ} (h : Climbed n W t) (hexact : Exact n t')
    (hs : system.step t e = some t') : Climbed n W t' := by
  obtain ⟨t₁, hs₁, hheld, hcases⟩ := h.held.step (h.held.within hs)
  cases hs.symm.trans hs₁
  refine ⟨hheld, ?_⟩
  rcases hcases with ⟨hpicked, hweight⟩ | ⟨b, hb, f, hlow, hpicked, hweight⟩
  · have heq : t'.weight = t.weight := funext fun c => congrArg Nat.cast (congrFun hweight c)
    rw [hpicked, heq]
    exact h.climb
  · have hinc : f.incWeight (t.pool.servers.weight b) = t.pool.servers.weight b + f.mul := by
      refine TBackEnd.incWeight_of_lt ?_
      have hlt := hexact b hb
      rwa [hweight, update_self] at hlt
    have hpick : LowestFirst.Pick (Finset.range n) (fun _ => (f.mul : ℚ)) t.weight b t'.weight := by
      refine ⟨Finset.mem_range.2 hb, fun c hc => Nat.cast_le.2 (hlow c (Finset.mem_range.1 hc)), ?_⟩
      funext c
      rw [weight, hweight, hinc]
      by_cases hc : c = b
      · subst hc
        rw [update_self, update_self, weight, Nat.cast_add]
      · rw [update_of_ne hc, update_of_ne hc, weight]
    rw [hpicked]
    have hmul := f.mul_bounds
    exact h.climb.append (.cons hpick (Nat.one_le_cast.2 hmul.1) (by exact_mod_cast hmul.2)
      (.nil _))

/-- An event adds at most 64 to a weight. -/
theorem Held.weight_le {k : ℕ} (h : Held n t) (hk : 1 + 64 * (k + 1) < 2 ^ 53)
    (hs : system.step t e = some t') (hle : ∀ b < n, t.pool.servers.weight b ≤ 1 + 64 * k) :
    Held n t' ∧ ∀ b < n, t'.pool.servers.weight b ≤ 1 + 64 * (k + 1) := by
  obtain ⟨t₁, hs₁, hheld, hcases⟩ := h.step (h.within hs)
  cases hs.symm.trans hs₁
  refine ⟨hheld, fun c hc => ?_⟩
  have hlec := hle c hc
  rcases hcases with ⟨-, hweight⟩ | ⟨b, hb, f, -, -, hweight⟩
  · rw [hweight]
    omega
  · rw [hweight]
    by_cases hcb : c = b
    · subst hcb
      have hmul := f.mul_bounds
      rw [update_self, TBackEnd.incWeight, TBackEnd.nearest_step,
        Rounding.nearest_of_lt (by omega)]
      omega
    · rw [update_of_ne hcb]
      omega

/-- Fewer than `2 ^ 47` events leave all weights exact. -/
theorem exact_of_length (address : Nat ↪ Nat) (descrs : List TBackEndDescriptor) {es : List TEvent}
    (hes : es.length < 2 ^ 47 - 1) :
    system.Always (Exact descrs.length) (configured address descrs) es := by
  have hrun : ∀ pre t, pre.length ≤ es.length → system.run (configured address descrs) pre =
      some t →
      Held descrs.length t ∧ ∀ b < descrs.length,
      t.pool.servers.weight b ≤ 1 + 64 * pre.length := by
    intro pre
    induction pre using List.reverseRecOn with
    | nil =>
      intro t _ ht
      cases ht
      obtain ⟨hheld, hfirst⟩ := held_configured address descrs
      exact ⟨hheld, fun b hb => (hfirst b hb).le⟩
    | append_singleton pre e ih =>
      intro t hlen ht
      rw [List.length_append, List.length_singleton] at hlen ⊢
      rw [run_concat] at ht
      obtain ⟨t₁, ht₁, hs⟩ := Option.bind_eq_some_iff.1 ht
      obtain ⟨hheld, hle⟩ := ih t₁ (by omega) ht₁
      exact hheld.weight_le (by omega) hs hle
  intro pre t hpre ht b hb
  have hlen := hpre.length_le
  have hle := (hrun pre t hlen ht).2 b hb
  omega

end TTrace

open TTrace

/-- For any number of backends, all addresses and every interleaving of picks and outcomes: the
events happen, and as long as all weights are below `2 ^ 53`, no weight is ahead of another one by
more than 64, and no backend is picked more than 65 times between two picks of another one. -/
theorem smartRoundRobin_bounded (address : Nat ↪ Nat) (descrs : List TBackEndDescriptor)
    (es : List TEvent) (hes : ∀ e ∈ es, e.Within descrs.length) :
    ∃ t, system.run (.configured address descrs) es = some t ∧
      (system.Always (Exact descrs.length) (.configured address descrs) es →
        system.Always (fun t => ∀ i < descrs.length, ∀ j < descrs.length,
          t.pool.servers.weight i ≤ t.pool.servers.weight j + 64) (.configured address descrs) es ∧
        ∀ pre j mid post, t.picked = pre ++ j :: mid ++ j :: post → j ∉ mid →
        ∀ i, mid.count i ≤ 65) := by
  obtain ⟨hheld, hfirst⟩ := held_configured address descrs
  obtain ⟨t, hrun⟩ := hheld.exists_run hes
  refine ⟨t, hrun, fun hexact => ?_⟩
  have hclimbed := hexact.invariant (Option.isSome_iff_exists.2 ⟨t, hrun⟩)
    (fun s e s' (h : Climbed descrs.length (configured address descrs).weight s) hP hs =>
      h.step hP hs)
    ⟨hheld, .nil _⟩
  constructor
  · intro pre s hpre hs i hi j hj
    have hspread := (hclimbed pre s hpre hs).climb.spread zero_le_one ?_ i (Finset.mem_range.2 hi) j
      (Finset.mem_range.2 hj)
    · have hle : ((s.pool.servers.weight i : ℕ) : ℚ) ≤
          ((s.pool.servers.weight j + 64 : ℕ) : ℚ) := by
        push_cast
        exact hspread
      exact Nat.cast_le.1 hle
    · intro a ha b hb
      rw [TTrace.weight, TTrace.weight, hfirst a (Finset.mem_range.1 ha),
        hfirst b (Finset.mem_range.1 hb)]
      norm_num
  · intro pre j mid post hpicked hj i
    by_cases hi : i ∈ mid
    · have hclimb := (hclimbed.last hrun).climb
      rw [hpicked] at hclimb
      have hcount := hclimb.count_between hj hi
      have hle : ((mid.count i : ℕ) : ℚ) ≤ ((65 : ℕ) : ℚ) := by
        push_cast
        linarith
      exact Nat.cast_le.1 hle
    · rw [List.count_eq_zero_of_not_mem hi]
      exact Nat.zero_le _

/-- Two backends; the first one fails a request and is slowed down. -/
theorem smartRoundRobin_bounded_two :
    ∃ t, system.run (.configured (.refl Nat) [{}, {}]) [.doNext, .onFailRequest 0, .doNext, .doNext,
      .doNext] =
        some t ∧
      system.Always (fun t => ∀ i < 2, ∀ j < 2,
        t.pool.servers.weight i ≤ t.pool.servers.weight j + 64)
        (.configured (.refl Nat) [{}, {}]) [.doNext, .onFailRequest 0, .doNext, .doNext, .doNext] ∧
      ∀ pre j mid post, t.picked = pre ++ j :: mid ++ j :: post → j ∉ mid →
      ∀ i, mid.count i ≤ 65 := by
  obtain ⟨t, hrun, h⟩ := smartRoundRobin_bounded (.refl Nat) [{}, {}]
    [.doNext, .onFailRequest 0, .doNext, .doNext, .doNext] (by simp [TEvent.Within])
  exact ⟨t, hrun, h (exact_of_length _ _ (by decide))⟩

/-! ### Weights that a double can not tell apart -/

namespace TTrace

/-- Two backends with nothing counted: `a` of the weight `wa`, and behind it `c` of the weight
`wc`. -/
structure Pair (a c : Nat) (wa wc : ℕ) (t : TTrace) : Prop where
  held : Held 2 t
  address : t.pool.servers.address = .refl Nat
  order : t.pool.servers.tree.toList = [a, c]
  weight_fst : t.pool.servers.weight a = wa
  weight_snd : t.pool.servers.weight c = wc
  backEnds_fst : t.pool.backEnds a = {}
  backEnds_snd : t.pool.backEnds c = {}

variable {m a c wa wc : ℕ} {t : TTrace}

theorem pair_configured : Pair 0 1 1 1 (configured (.refl Nat) [{}, {}]) := by
  obtain ⟨hheld, hweight⟩ := held_configured (.refl Nat) [{}, {}]
  exact ⟨hheld, rfl, by decide +kernel, hweight 0 Nat.two_pos, hweight 1 Nat.one_lt_two, rfl, rfl⟩

/-- One pick of two: the first one goes behind the other one unless its new weight leaves it in
front. -/
theorem Held.pick_pair (h : Held 2 t) (haddress : t.pool.servers.address = .refl Nat) (hne : a ≠ c)
    (horder : t.pool.servers.tree.toList = [a, c]) :
    ∃ t', system.step t .doNext = some t' ∧ Held 2 t' ∧ t'.pool.servers.address = .refl Nat ∧
      t'.picked = t.picked ++ [a] ∧
      t'.pool.servers.weight = update t.pool.servers.weight a
        ((t.pool.backEnds a).updateState.incWeight (t.pool.servers.weight a)) ∧
      t'.pool.backEnds = update t.pool.backEnds a (t.pool.backEnds a).updateState ∧
      t'.pool.servers.tree.toList =
        if weightLt id t'.pool.servers.weight a c then [a, c] else [c, a] := by
  obtain ⟨b, rest, t', hstep, hheld, -, -, hpicked, haddress', hweight, hbackEnds, hs, hs'⟩ :=
    h.doNext Nat.two_pos
  obtain ⟨rfl, rfl⟩ : a = b ∧ [c] = rest := List.cons_eq_cons.1 (horder.symm.trans hs)
  refine ⟨t', hstep, hheld, haddress'.trans haddress, hpicked, hweight, hbackEnds, ?_⟩
  rw [haddress] at hs'
  by_cases hlt : weightLt id t'.pool.servers.weight a c
  · rw [hs', if_pos hlt]
    exact TAvlTree.insert_of_forall (List.forall_mem_singleton.2 hlt)
  · have hgt : weightLt id t'.pool.servers.weight c a :=
      (weightLt_total Function.injective_id hne).resolve_left hlt
    rw [hs', if_neg hlt]
    exact TAvlTree.insert_append [] (List.forall_mem_singleton.2 ⟨hlt, hgt⟩)

theorem Pair.pick (h : Pair a c wa wc t) (hne : a ≠ c) :
    ∃ t', system.step t .doNext = some t' ∧ t'.picked = t.picked ++ [a] ∧
      if TBackEnd.incWeight {} wa < wc ∨ (TBackEnd.incWeight {} wa = wc ∧ a < c) then
        Pair a c (TBackEnd.incWeight {} wa) wc t'
      else Pair c a wc (TBackEnd.incWeight {} wa) t' := by
  obtain ⟨t', hstep, hheld, haddress, hpicked, hweight, hbackEnds, horder⟩ :=
    h.held.pick_pair h.address hne h.order
  have hdefault : TBackEnd.updateState {} = {} := rfl
  rw [h.backEnds_fst, hdefault] at hweight hbackEnds
  rw [h.weight_fst] at hweight
  have hwa : t'.pool.servers.weight a = TBackEnd.incWeight {} wa := by rw [hweight, update_self]
  have hwc : t'.pool.servers.weight c = wc := by rw [hweight, update_of_ne hne.symm, h.weight_snd]
  have hba : t'.pool.backEnds a = {} := by rw [hbackEnds, update_self]
  have hbc : t'.pool.backEnds c = {} := by rw [hbackEnds, update_of_ne hne.symm, h.backEnds_snd]
  refine ⟨t', hstep, hpicked, ?_⟩
  simp only [weightLt, hwa, hwc, id] at horder
  split at horder
  · rw [if_pos ‹_›]
    exact ⟨hheld, haddress, horder, hwa, hwc, hba, hbc⟩
  · rw [if_neg ‹_›]
    exact ⟨hheld, haddress, horder, hwc, hwa, hbc, hba⟩

theorem incWeight_default (hm : m < 2 ^ 53) : TBackEnd.incWeight {} m = m + 1 := by
  rcases Nat.lt_or_eq_of_le (Nat.succ_le_of_lt hm) with hlt | heq
  · exact Rounding.nearest_of_lt hlt
  · obtain rfl : m = 2 ^ 53 - 1 := by omega
    decide +kernel

/-- The step from `2 ^ 53` is lost. -/
theorem incWeight_default_top : TBackEnd.incWeight {} (2 ^ 53) = 2 ^ 53 := by decide +kernel

/-- Below `2 ^ 53` the two backends take turns. -/
theorem Pair.turn (h : Pair 0 1 m m t) (hm : m < 2 ^ 53) :
    ∃ t', system.run t [.doNext, .doNext] = some t' ∧ Pair 0 1 (m + 1) (m + 1) t' ∧
      t'.picked = t.picked ++ [0, 1] := by
  obtain ⟨t₁, hs₁, hpicked₁, h₁⟩ := h.pick Nat.zero_ne_one
  rw [incWeight_default hm, if_neg (by omega)] at h₁
  obtain ⟨t₂, hs₂, hpicked₂, h₂⟩ := h₁.pick Nat.one_ne_zero
  rw [incWeight_default hm, if_neg (by omega)] at h₂
  refine ⟨t₂, (run_cons hs₁).trans (run_cons hs₂), h₂, ?_⟩
  rw [hpicked₂, hpicked₁, List.append_assoc]
  rfl

theorem Pair.turns (h : Pair 0 1 m m t) (k : ℕ) (hk : m + k ≤ 2 ^ 53) :
    ∃ es t', system.run t es = some t' ∧ (∀ e ∈ es, e.Within 2) ∧ Pair 0 1 (m + k) (m + k) t' := by
  induction k with
  | zero => exact ⟨[], t, rfl, List.forall_mem_nil _, h⟩
  | succ k ih =>
    obtain ⟨es, t₁, hrun₁, hes, h₁⟩ := ih (by omega)
    obtain ⟨t₂, hrun₂, h₂, -⟩ := h₁.turn (by omega)
    refine ⟨es ++ [.doNext, .doNext], t₂, ?_, ?_, h₂⟩
    · rw [run_append, hrun₁, Option.bind_some, hrun₂]
    · exact List.forall_mem_append.2 ⟨hes, by simp [TEvent.Within]⟩

/-- At `2 ^ 53` the first one is picked again and again. -/
theorem Pair.stay (h : Pair 0 1 (2 ^ 53) (2 ^ 53) t) (k : ℕ) :
    ∃ t', system.run t (List.replicate k .doNext) = some t' ∧ Pair 0 1 (2 ^ 53) (2 ^ 53) t' ∧
      t'.picked = t.picked ++ List.replicate k 0 := by
  induction k generalizing t with
  | zero => exact ⟨t, rfl, h, (List.append_nil _).symm⟩
  | succ k ih =>
    obtain ⟨t₁, hs₁, hpicked₁, h₁⟩ := h.pick Nat.zero_ne_one
    rw [incWeight_default_top, if_pos (by omega)] at h₁
    obtain ⟨t', hrun, h', hpicked⟩ := ih h₁
    refine ⟨t', ?_, h', ?_⟩
    · rw [List.replicate_succ, run_cons hs₁, hrun]
    · rw [hpicked, hpicked₁, List.append_assoc, List.replicate_succ]
      rfl

/-- A failure moves the first one on, and the other one is picked. -/
theorem Pair.leave (h : Pair 0 1 (2 ^ 53) (2 ^ 53) t) :
    ∃ t', system.run t [.onFailRequest 0, .doNext, .doNext] = some t' ∧
      t'.picked = t.picked ++ [0, 1] := by
  obtain ⟨t₀, hfail, hheld₀, hservers₀, hbackEnds₀, hpicked₀⟩ : ∃ t₀,
      system.step t (.onFailRequest 0) = some t₀ ∧
      Held 2 t₀ ∧ t₀.pool.servers = t.pool.servers ∧
      t₀.pool.backEnds 0 = TBackEnd.onFailRequest {} ∧ t₀.picked = t.picked := by
    refine ⟨_, congrArg (Option.map _) (h.held.onRequest Nat.two_pos _),
      ⟨h.held.size, h.held.holds⟩, rfl, ?_, rfl⟩
    rw [← h.backEnds_fst]
    exact update_self (0 : Nat) _ t.pool.backEnds
  obtain ⟨t₁, hs₁, hheld₁, haddress₁, hpicked₁, hweight₁, -, horder₁⟩ :=
    hheld₀.pick_pair (hservers₀ ▸ h.address) Nat.zero_ne_one (hservers₀ ▸ h.order)
  rw [hservers₀, hbackEnds₀, h.weight_fst] at hweight₁
  have hw₁ : t₁.pool.servers.weight 0 = 2 ^ 53 + 2 := by
    rw [hweight₁, update_self]
    decide +kernel
  have hw₁' : t₁.pool.servers.weight 1 = 2 ^ 53 := by
    rw [hweight₁, update_of_ne Nat.one_ne_zero, h.weight_snd]
  rw [if_neg (by rw [weightLt, hw₁, hw₁']; omega)] at horder₁
  obtain ⟨t₂, hs₂, -, -, hpicked₂, -⟩ := hheld₁.pick_pair haddress₁ Nat.one_ne_zero horder₁
  refine ⟨t₂, ?_, ?_⟩
  · rw [run_cons hfail, run_cons hs₁, run_cons hs₂, run_nil]
  · rw [hpicked₂, hpicked₁, hpicked₀, List.append_assoc]
    rfl

end TTrace

/-- Two backends that have reached `2 ^ 53`: the first one is picked 67 times between two picks of
the second one. -/
theorem smartRoundRobin_flood :
    ∃ es t pre mid post, (∀ e ∈ es, e.Within 2) ∧
      system.run (.configured (.refl Nat) [{}, {}]) es = some t ∧
      t.picked = pre ++ 1 :: mid ++ 1 :: post ∧ 1 ∉ mid ∧ mid.count 0 = 67 := by
  obtain ⟨es, t₁, hrun₁, hes, h₁⟩ := pair_configured.turns (2 ^ 53 - 2) (by omega)
  obtain ⟨t₂, hrun₂, h₂, hpicked₂⟩ := h₁.turn (by omega)
  obtain ⟨t₃, hrun₃, h₃, hpicked₃⟩ := Pair.stay h₂ 66
  obtain ⟨t₄, hrun₄, hpicked₄⟩ := h₃.leave
  refine ⟨es ++ ([TEvent.doNext, TEvent.doNext] ++ (List.replicate 66 TEvent.doNext ++
      [TEvent.onFailRequest 0, TEvent.doNext, TEvent.doNext])), t₄,
    t₁.picked ++ [0], List.replicate 66 0 ++ [0], [], ?_, ?_, ?_, ?_, ?_⟩
  · refine List.forall_mem_append.2 ⟨hes, ?_⟩
    simp [TEvent.Within]
  · rw [run_append, hrun₁, Option.bind_some, run_append, hrun₂, Option.bind_some,
      run_append, hrun₃, Option.bind_some, hrun₄]
  · rw [hpicked₄, hpicked₃, hpicked₂]
    simp only [List.append_assoc, List.cons_append, List.nil_append]
  · decide
  · decide

end SmartRR

end Balancer
