import Balancer.Modules.Balancer.RRobin
import Balancer.Theory.LowestFirst

/-!
# The backends of a request under round robin

The loop of `TConnIterator::Next` passes over the backends that the request has tried, and every
pick moves the picked backend back by its weight. With positive weights an untried one comes first
after finitely many picks; a weight that is not positive keeps a backend in front for ever
(`roundRobin_distinct_iff`).
-/

namespace Balancer

namespace TConnIterator

variable {β π : Type} [DecidableEq β] [IBackEnds π β] {tried : List β} {fuel fuel' attempt : Nat}
  {pool : π}

theorem nextLoop_succ (tried : List β) (fuel attempt : Nat) (pool : π) :
    nextLoop tried (fuel + 1) attempt pool =
      if (IBackEnds.next pool attempt).1 ∈ tried ∧
          tried.length < IBackEnds.size (IBackEnds.next pool attempt).2 then
        nextLoop tried fuel (attempt + 1) (IBackEnds.next pool attempt).2
      else some ((IBackEnds.next pool attempt).1, attempt + 1,
        (IBackEnds.next pool attempt).2) := by
  simp only [nextLoop, alreadyHave, decide_eq_true_eq]

/-! ### More fuel changes no answer -/

theorem nextLoop_mono {r : β × Nat × π} (h : nextLoop tried fuel attempt pool = some r)
    (hle : fuel ≤ fuel') : nextLoop tried fuel' attempt pool = some r := by
  induction fuel generalizing fuel' attempt pool with
  | zero => cases h
  | succ fuel ih =>
    obtain ⟨fuel', rfl⟩ := Nat.exists_eq_add_one.2 (Nat.zero_lt_of_lt hle)
    rw [nextLoop_succ] at h ⊢
    split
    · rename_i hc
      rw [if_pos hc] at h
      exact ih h (Nat.le_of_succ_le_succ hle)
    · rename_i hc
      rwa [if_neg hc] at h

theorem next_mono {it : TConnIterator β} {r : TNext β π} (h : it.next fuel pool = some r)
    (hle : fuel ≤ fuel') : it.next fuel' pool = some r := by
  obtain ⟨a, ha, rfl⟩ := Option.map_eq_some_iff.mp h
  rw [next, nextLoop_mono ha hle, Option.map_some]

/-- Calls that all return: the first one does, and the others do from the state it leaves. -/
theorem calls_succ_eq_some {others : Nat → π → π} {n k : Nat} {it : TConnIterator β} {bs : List β} :
    calls fuel others (n + 1) k it pool = some bs ↔
      ∃ b it' pool' bs', it.next fuel (others k pool) = some (.recorded b it' pool') ∧
        calls fuel others n (k + 1) it' pool' = some bs' ∧ b :: bs' = bs := by
  rw [calls]
  rcases it.next fuel (others k pool) with _ | ⟨b, it', pool'⟩ | _ <;> simp

theorem calls_mono {others : Nat → π → π} {n k : Nat} {it : TConnIterator β} {bs : List β}
    (h : calls fuel others n k it pool = some bs) (hle : fuel ≤ fuel') :
    calls fuel' others n k it pool = some bs := by
  induction n generalizing k it pool bs with
  | zero => exact h
  | succ n ih =>
    obtain ⟨b, it', pool', bs', hn, hbs, rfl⟩ := calls_succ_eq_some.mp h
    exact calls_succ_eq_some.mpr ⟨b, it', pool', bs', next_mono hn hle, ih hbs, rfl⟩

/-! ### What a call does -/

theorem next_recorded {it it' : TConnIterator β} {b : β} {pool' : π}
    (h : it.next fuel pool = some (.recorded b it' pool')) :
    ∃ attempt', nextLoop it.attempts fuel it.attempt pool = some (b, attempt', pool') ∧
      it.cur < it.capacity ∧ it' = ⟨it.capacity, it.attempts ++ [b], attempt'⟩ := by
  obtain ⟨⟨b₁, attempt', pool₁⟩, hl, h⟩ := Option.map_eq_some_iff.mp h
  by_cases hc : it.cur < it.capacity
  · simp only [if_pos hc] at h
    cases h
    exact ⟨attempt', hl, hc, rfl⟩
  · simp only [if_neg hc] at h
    cases h

/-- What every pick of the policy keeps, the loop keeps; it ends with a pick that is new or that
comes when there can be no new one. -/
theorem nextLoop_spec {P : π → Prop} (hP : ∀ pool a, P pool → P (IBackEnds.next pool a).2) {b : β}
    {attempt' : Nat} {pool' : π} (h : nextLoop tried fuel attempt pool = some (b, attempt', pool'))
    (hpool : P pool) :
    P pool' ∧ (b ∈ tried → IBackEnds.size pool' ≤ tried.length) ∧
      ∃ pool₀ a, P pool₀ ∧ (IBackEnds.next pool₀ a).1 = b := by
  induction fuel generalizing attempt pool with
  | zero => cases h
  | succ fuel ih =>
    rw [nextLoop_succ] at h
    by_cases hc : (IBackEnds.next pool attempt).1 ∈ tried ∧
        tried.length < IBackEnds.size (IBackEnds.next pool attempt).2
    · rw [if_pos hc] at h
      exact ih h (hP pool attempt hpool)
    · rw [if_neg hc] at h
      cases h
      refine ⟨hP pool attempt hpool, fun hb => ?_, pool, attempt, hpool, rfl⟩
      exact Nat.not_lt.mp fun hlt => hc ⟨hb, hlt⟩

/-- A policy that keeps giving tried backends keeps the loop going. -/
theorem nextLoop_eq_none {P : π → Prop} (hP : ∀ pool a, P pool → P (IBackEnds.next pool a).2)
    (htried : ∀ pool a, P pool → (IBackEnds.next pool a).1 ∈ tried)
    (hsize : ∀ pool, P pool → tried.length < IBackEnds.size pool) (hpool : P pool) :
    nextLoop tried fuel attempt pool = none := by
  induction fuel generalizing attempt pool with
  | zero => rfl
  | succ fuel ih =>
    have hnext := hP pool attempt hpool
    rw [nextLoop_succ, if_pos ⟨htried pool attempt hpool, hsize _ hnext⟩]
    exact ih hnext

/-- Calls that all return have had room in the array. -/
theorem calls_inBounds {others : Nat → π → π} {n k : Nat} {it : TConnIterator β} {bs : List β}
    (h : calls fuel others n k it pool = some bs) (hcur : it.cur ≤ it.capacity) :
    it.cur + n ≤ it.capacity := by
  induction n generalizing k it pool bs with
  | zero => exact hcur
  | succ n ih =>
    obtain ⟨b, it', pool', bs', hn, hbs, -⟩ := calls_succ_eq_some.mp h
    obtain ⟨attempt', -, hlt, rfl⟩ := next_recorded hn
    have hlen : (it.attempts ++ [b]).length = it.cur + 1 := List.length_append
    have hle := ih hbs (hlen.trans_le hlt)
    rw [cur, hlen, Nat.add_assoc, Nat.add_comm 1] at hle
    exact hle

end TConnIterator

namespace RRobin

open TConnIterator

/-! ### Picks -/

namespace TBackEnds

/-- A pick of `DoNext` is a pick of the lowest. -/
theorem doNext_pick (p : TBackEnds) (h : p.size ≠ 0) :
    LowestFirst.Pick (Finset.range p.size) p.weightStep p.weight (p.doNext h).1
      (p.doNext h).2.weight where
  mem := Finset.mem_range.mpr (mem_servers.mp (List.head_mem (servers_ne_nil h)))
  lowest b hb := by
    have hmem : b ∈ p.servers := mem_servers.mpr (Finset.mem_range.mp hb)
    have hsorted := p.sorted
    rw [← List.cons_head_tail (servers_ne_nil h)] at hmem hsorted
    rcases List.mem_cons.mp hmem with rfl | hmem
    · exact le_refl _
    · exact ((List.pairwise_cons.mp hsorted).1 b hmem).weight_le
  weights := rfl

theorem weight_ofConfig (address : Nat ↪ Nat) (descrs : List TBackEndDescriptor) :
    (ofConfig address descrs).weight = (ofConfig address descrs).weightStep := by
  induction descrs using List.reverseRecOn with
  | nil => rfl
  | append_singleton descrs d ih =>
    rw [ofConfig_concat, add_weight, add_weightStep, ih]

theorem weightStep_ofConfig (address : Nat ↪ Nat) (descrs : List TBackEndDescriptor) {b : Nat}
    (hb : b < descrs.length) : (ofConfig address descrs).weightStep b = descrs[b].weight := by
  induction descrs using List.reverseRecOn with
  | nil => cases hb
  | append_singleton descrs d ih =>
    rw [ofConfig_concat, add_weightStep, size_ofConfig]
    rw [List.length_append, List.length_singleton] at hb
    rcases Nat.lt_succ_iff_lt_or_eq.mp hb with hb | rfl
    · rw [Function.update_of_ne (Nat.ne_of_lt hb), ih hb, List.getElem_append_left hb]
    · rw [Function.update_self, List.getElem_concat_length rfl]

theorem forall_weightStep_ofConfig (address : Nat ↪ Nat) (descrs : List TBackEndDescriptor)
    (P : ℚ → Prop) :
    (∀ b < descrs.length, P ((ofConfig address descrs).weightStep b)) ↔
      ∀ d ∈ descrs, P d.weight := by
  rw [List.forall_mem_iff_getElem]
  exact forall₂_congr fun b hb => by rw [weightStep_ofConfig address descrs hb]

end TBackEnds

namespace TPool

theorem picks_induction {P : TPool → Prop} (hP : ∀ p a, P p → P (IBackEnds.next p a).2) (m : Nat)
    {p : TPool} (hp : P p) : P (picks m p) := by
  induction m with
  | zero => exact hp
  | succ m ih =>
    rw [picks, Function.iterate_succ_apply']
    exact hP _ 0 ih

/-- What the picks leave alone: the number of the backends and their steps. -/
def Over (n : Nat) (step : Nat → ℚ) (p : TPool) : Prop := p.1.size = n ∧ p.1.weightStep = step

theorem Over.next {n : Nat} {step : Nat → ℚ} (p : TPool) (a : Nat) (h : Over n step p) :
    Over n step (IBackEnds.next p a).2 := h

/-! ### Positive weights -/

/-- A loop that has not ended has picked tried backends only. -/
theorem nextLoop_none_picks {tried : List Nat} {fuel attempt : Nat} {p : TPool}
    (h : nextLoop tried fuel attempt p = none) :
    ∃ is, is.length = fuel ∧ is ⊆ tried ∧
      LowestFirst.Picks (Finset.range p.1.size) p.1.weightStep p.1.weight is := by
  induction fuel generalizing attempt p with
  | zero => exact ⟨[], rfl, List.nil_subset _, .nil _⟩
  | succ fuel ih =>
    rw [nextLoop_succ] at h
    by_cases hc : (IBackEnds.next p attempt).1 ∈ tried ∧
        tried.length < IBackEnds.size (IBackEnds.next p attempt).2
    · rw [if_pos hc] at h
      obtain ⟨is, hlen, hsub, hpicks⟩ := ih h
      refine ⟨(IBackEnds.next p attempt).1 :: is, by rw [List.length_cons, hlen], ?_, ?_⟩
      · exact List.cons_subset.mpr ⟨hc.1, hsub⟩
      · exact .cons (p.1.doNext_pick p.2) hpicks
    · rw [if_neg hc] at h
      cases h

/-- With positive steps the loop ends as long as there is a backend that was not tried. -/
theorem exists_nextLoop {n : Nat} {step : Nat → ℚ} {p : TPool} (hp : Over n step p)
    (hstep : ∀ b < n, 0 < step b) {tried : List Nat} (htried : tried.length < n) (attempt : Nat) :
    ∃ fuel b attempt' p', nextLoop tried fuel attempt p = some (b, attempt', p') ∧ b ∉ tried ∧
      Over n step p' := by
  obtain ⟨rfl, rfl⟩ := hp
  have hcard : tried.toFinset.card < (Finset.range p.1.size).card := by
    rw [Finset.card_range]
    exact (List.toFinset_card_le tried).trans_lt htried
  obtain ⟨u, hu, hut⟩ := Finset.exists_mem_notMem_of_card_lt_card hcard
  obtain ⟨N, hN⟩ :=
    LowestFirst.exists_bound (fun b hb => hstep b (Finset.mem_range.mp hb)) hu p.1.weight
  refine ⟨N + 1, ?_⟩
  rcases h : nextLoop tried (N + 1) attempt p with _ | ⟨b, attempt', p'⟩
  · -- `N + 1` picks would pass over `u`
    obtain ⟨is, hlen, hsub, hpicks⟩ := nextLoop_none_picks h
    have hle := hN is hpicks fun hi => hut (List.mem_toFinset.mpr (hsub hi))
    omega
  · obtain ⟨hp', hb, -⟩ := nextLoop_spec (P := Over _ _) Over.next h ⟨rfl, rfl⟩
    refine ⟨b, attempt', p', rfl, fun hmem => ?_, hp'⟩
    have hsize : IBackEnds.size p' = p.1.size := hp'.1
    exact absurd (hb hmem) (Nat.not_le.mpr (htried.trans_eq hsize.symm))

theorem exists_calls {size n k : Nat} {step : Nat → ℚ} {p : TPool} {it : TConnIterator Nat}
    {others : Nat → TPool → TPool} (hothers : ∀ k p, Over size step p → Over size step (others k p))
    (hp : Over size step p) (hstep : ∀ b < size, 0 < step b) (hsize : it.cur + n ≤ size)
    (hcap : it.cur + n ≤ it.capacity) (hnodup : it.attempts.Nodup) :
    ∃ fuel bs, calls fuel others n k it p = some bs ∧ (it.attempts ++ bs).Nodup := by
  induction n generalizing k it p with
  | zero => exact ⟨0, [], rfl, by rwa [List.append_nil]⟩
  | succ n ih =>
    obtain ⟨fuel₁, b, attempt', p', hl, hb, hp'⟩ :=
      exists_nextLoop (hothers k p hp) hstep (by rw [cur] at hsize; omega : it.attempts.length <
        size) it.attempt
    have hnext : it.next fuel₁ (others k p) =
        some (.recorded b ⟨it.capacity, it.attempts ++ [b], attempt'⟩ p') := by
      rw [next, hl, Option.map_some]
      exact congrArg some (if_pos (by omega))
    have hlen : (it.attempts ++ [b]).length = it.cur + 1 := List.length_append
    have hnodup' : (it.attempts ++ [b]).Nodup :=
      List.nodup_append'.mpr ⟨hnodup, List.nodup_singleton b, List.disjoint_singleton.mpr hb⟩
    have hsize' : (it.attempts ++ [b]).length + n ≤ size := by omega
    have hcap' : (it.attempts ++ [b]).length + n ≤ it.capacity := by omega
    obtain ⟨fuel₂, bs, hbs, hall⟩ :=
      @ih (k + 1) p' ⟨it.capacity, it.attempts ++ [b], attempt'⟩ hp' hsize' hcap' hnodup'
    refine ⟨max fuel₁ fuel₂, b :: bs, ?_, by rwa [List.append_assoc] at hall⟩
    exact calls_succ_eq_some.mpr ⟨b, _, p', bs, next_mono hnext (Nat.le_max_left ..),
      calls_mono hbs (Nat.le_max_right ..), rfl⟩

/-! ### A weight that is not positive -/

/-- `b` is first among several and no pick moves it back. -/
structure Stuck (b : Nat) (p : TPool) : Prop where
  head : p.1.servers.head? = some b
  step : p.1.weightStep b ≤ 0
  size : 1 < p.1.size

theorem Stuck.fst_next {b : Nat} (p : TPool) (a : Nat) (h : Stuck b p) :
    (IBackEnds.next p a).1 = b := by
  obtain ⟨tail, hs⟩ : ∃ tail, p.1.servers = b :: tail := List.head?_eq_some_iff.mp h.head
  exact (TBackEnds.doNext_cons p.2 hs).1

theorem Stuck.next {b : Nat} (p : TPool) (a : Nat) (h : Stuck b p) :
    Stuck b (IBackEnds.next p a).2 := by
  refine ⟨?_, h.step, h.size⟩
  obtain ⟨tail, hs⟩ : ∃ tail, p.1.servers = b :: tail := List.head?_eq_some_iff.mp h.head
  have hb : b ∉ tail := (List.nodup_cons.mp (hs ▸ p.1.nodup_servers)).1
  have hsorted := p.1.sorted
  rw [hs, List.pairwise_cons] at hsorted
  -- it gets no heavier and goes back to the front
  have hfront : ∀ c ∈ tail,
      TBackEnd.compare p.1.address (Function.update p.1.weight b (p.1.weight b + p.1.weightStep b))
        b c := by
    intro c hc
    refine (hsorted.1 c hc).of_le ?_ (Function.update_of_ne (fun h : c = b => hb (h ▸ hc)) _ _)
    rw [Function.update_self]
    exact add_le_of_nonpos_right h.step
  have hnext : (IBackEnds.next p a).2.1.servers = b :: tail :=
    (TBackEnds.doNext_cons p.2 hs).2.trans (TAvlTree.insert_of_forall hfront)
  rw [hnext, List.head?_cons]

/-- The second call of a request does not return when the first backend is stuck. -/
theorem Stuck.calls_eq_none {b n k fuel : Nat} {p : TPool} {others : Nat → TPool → TPool}
    (hothers : ∀ k p, Stuck b p → Stuck b (others k p)) (h : Stuck b p) (hn : 1 < n) :
    calls fuel others n k {} p = none := by
  obtain ⟨n, rfl⟩ := Nat.exists_eq_add_of_le' hn
  refine Option.eq_none_iff_forall_ne_some.mpr fun bs hcalls => ?_
  obtain ⟨b₁, it₁, p₁, bs₁, hfst, hcalls₁, -⟩ := calls_succ_eq_some.mp hcalls
  obtain ⟨b₂, it₂, p₂, bs₂, hsnd, -, -⟩ := calls_succ_eq_some.mp hcalls₁
  obtain ⟨attempt', hl, -, rfl⟩ := next_recorded hfst
  obtain ⟨_, hl₂, -, -⟩ := next_recorded hsnd
  obtain ⟨hp₁, -, p₀, a, hp₀, rfl⟩ := nextLoop_spec Stuck.next hl (hothers k p h)
  have htried : ∀ p' a', Stuck b p' →
      (IBackEnds.next p' a').1 ∈ [] ++ [(IBackEnds.next p₀ a).1] := by
    intro p' a' hp'
    rw [hp'.fst_next, hp₀.fst_next]
    exact List.mem_singleton_self b
  have hnone : nextLoop ([] ++ [(IBackEnds.next p₀ a).1]) fuel attempt' (others (k + 1) p₁) =
      none :=
    nextLoop_eq_none Stuck.next htried (fun _ hp => hp.size) (hothers (k + 1) p₁ hp₁)
  cases hnone.symm.trans hl₂

/-- The first backend is stuck at the beginning if one of several has a weight that is not
positive. -/
theorem exists_stuck {address : Nat ↪ Nat} {descrs : List TBackEndDescriptor} {h : descrs ≠ []}
    (hlen : 1 < descrs.length) (hw : ¬∀ d ∈ descrs, 0 < d.weight) :
    ∃ b, Stuck b (configured address descrs h) := by
  rw [← TBackEnds.forall_weightStep_ofConfig address descrs (0 < ·)] at hw
  push Not at hw
  obtain ⟨c, hc, hle⟩ := hw
  have hpick := (configured address descrs h).1.doNext_pick (configured address descrs h).2
  have hsize : (configured address descrs h).1.size = descrs.length := TBackEnds.size_ofConfig ..
  refine ⟨_, List.head?_eq_some_head (TBackEnds.servers_ne_nil (configured address descrs h).2), ?_,
    hsize ▸ hlen⟩
  have hlow := hpick.lowest c (Finset.mem_range.mpr (hsize ▸ hc))
  have heq : (configured address descrs h).1.weight = (configured address descrs h).1.weightStep :=
    TBackEnds.weight_ofConfig ..
  rw [heq] at hlow
  exact hlow.trans hle

end TPool

/-- With a weight that is not positive among several, the second call never returns. -/
theorem calls_eq_none_of_nonpos (address : Nat ↪ Nat) {descrs : List TBackEndDescriptor}
    (h : descrs ≠ []) (other : Nat → Nat) (fuel : Nat) (hlen : 1 < descrs.length)
    (hw : ¬∀ d ∈ descrs, 0 < d.weight) :
    calls fuel (fun k => TPool.picks (other k)) descrs.length 0 {} (.configured address descrs h) =
      none := by
  obtain ⟨b, hb⟩ := TPool.exists_stuck (h := h) hlen hw
  exact hb.calls_eq_none (fun k p hp => TPool.picks_induction TPool.Stuck.next (other k) hp) hlen

/-- For every pool and all picks of other requests before each call: the calls of a request for as
many backends as there are return, with distinct backends, iff the array has room for them and all
weights are positive, or there is one backend only. -/
theorem roundRobin_distinct_iff (address : Nat ↪ Nat) (descrs : List TBackEndDescriptor)
    (h : descrs ≠ []) (other : Nat → Nat) :
    (∃ fuel bs, calls fuel (fun k => TPool.picks (other k)) descrs.length 0 {}
        (TPool.configured address descrs h) = some bs ∧ bs.Nodup) ↔
      descrs.length ≤ 16 ∧ (descrs.length = 1 ∨ ∀ d ∈ descrs, 0 < d.weight) := by
  constructor
  · rintro ⟨fuel, bs, hcalls, -⟩
    refine ⟨?_, or_iff_not_imp_left.mpr fun hone => ?_⟩
    · have hle := calls_inBounds hcalls (Nat.zero_le 16)
      exact (Nat.zero_add _).symm.trans_le hle
    · by_contra hw
      have hlen : 1 < descrs.length :=
        Nat.lt_of_le_of_ne (List.length_pos_iff.mpr h) (Ne.symm hone)
      rw [calls_eq_none_of_nonpos address h other fuel hlen hw] at hcalls
      cases hcalls
  · rintro ⟨hcap, hone | hw⟩
    · refine ⟨1, [(IBackEnds.next (TPool.picks (other 0) (TPool.configured address descrs h)) 0).1],
        ?_, List.nodup_singleton _⟩
      rw [hone, calls, next, nextLoop_succ, if_neg fun hmem => List.not_mem_nil hmem.1]
      rfl
    · have hp : TPool.Over descrs.length (TBackEnds.ofConfig address descrs).weightStep
          (TPool.configured address descrs h) := ⟨TBackEnds.size_ofConfig address descrs, rfl⟩
      have hall : ([] : List Nat).length + descrs.length = descrs.length := Nat.zero_add _
      exact TPool.exists_calls (fun k p hp => TPool.picks_induction TPool.Over.next (other k) hp) hp
        ((TBackEnds.forall_weightStep_ofConfig address descrs (0 < ·)).mpr hw) hall.le
          (hall.trans_le hcap)
        List.nodup_nil

/-- Three backends, one of them with the default weight, and other requests in between. -/
theorem roundRobin_distinct_three :
    [({ weight := 3 } : TBackEndDescriptor), {}, { weight := 1 / 2 }] ≠ [] ∧
    ∃ fuel bs, calls fuel (fun k => TPool.picks k) 3 0 {}
        (TPool.configured (.refl Nat) [{ weight := 3 }, {}, { weight := 1 / 2 }]
          (List.cons_ne_nil _ _)) =
      some bs ∧ bs.Nodup :=
  ⟨List.cons_ne_nil _ _, (roundRobin_distinct_iff (.refl Nat) _ (List.cons_ne_nil _ _) id).mpr
    ⟨by decide, .inr (by simp)⟩⟩

/-- Two backends, one of weight 0: the second call never returns. -/
theorem roundRobin_weight_zero :
    ¬∃ fuel bs, calls fuel (fun _ => TPool.picks 0) 2 0 {}
        (TPool.configured (.refl Nat) [{ weight := 0 }, {}] (List.cons_ne_nil _ _)) = some bs ∧
        bs.Nodup := by
  rintro ⟨fuel, bs, hcalls, -⟩
  have hw : ¬∀ d ∈ [({ weight := 0 } : TBackEndDescriptor), {}], 0 < d.weight := fun h =>
    lt_irrefl _ (h _ List.mem_cons_self)
  have hnone :=
    calls_eq_none_of_nonpos (.refl Nat) (List.cons_ne_nil _ _) (fun _ => 0) fuel (by decide) hw
  cases hnone.symm.trans hcalls

/-! ### The shares of the backends -/

namespace TTreeBackEnds

/-- Calls of `DoNext` return, and are picks of the lowest. -/
theorem Refines.run {p : TTreeBackEnds} {q : TBackEnds} (h : Refines p q) (hq : q.size ≠ 0)
    (k : Nat) :
    ∃ picks p', p.run k = some (picks, p') ∧ picks.length = k ∧ p'.servers.Holds q.size ∧
      LowestFirst.Picks (Finset.range q.size) q.weightStep q.weight picks := by
  induction k generalizing p q with
  | zero => exact ⟨[], p, rfl, rfl, h.holds, .nil _⟩
  | succ k ih =>
    obtain ⟨p₁, hp₁, h₁⟩ := h.doNext hq
    obtain ⟨picks, p', hrun, hlen, hholds, hpicks⟩ := ih h₁ hq
    refine ⟨(q.doNext hq).1 :: picks, p', ?_, congrArg (· + 1) hlen, hholds,
      .cons (q.doNext_pick hq) hpicks⟩
    rw [TTreeBackEnds.run, hp₁, Option.bind_some, hrun, Option.map_some]

end TTreeBackEnds

/-- For all positive weights, all addresses and any number of calls: `DoNext` returns, the tree
holds every backend once, and no backend has been picked by more than one step ahead of another
one. -/
theorem roundRobin_shares (address : Nat ↪ Nat) (descrs : List TBackEndDescriptor)
    (hne : descrs ≠ []) (hpos : ∀ d ∈ descrs, 0 < d.weight) (k : Nat) :
    ∃ picks p, (TTreeBackEnds.ofConfig address descrs).run k = some (picks, p) ∧ picks.length = k ∧
      p.servers.tree.toList.Perm (List.range descrs.length) ∧
      ∀ i (hi : i < descrs.length) j (hj : j < descrs.length),
        descrs[i].weight * picks.count i ≤ descrs[j].weight * (picks.count j + 1) := by
  have hsize : (TBackEnds.ofConfig address descrs).size = descrs.length :=
    TBackEnds.size_ofConfig ..
  have hstep := (TBackEnds.forall_weightStep_ofConfig address descrs (0 < ·)).mpr hpos
  obtain ⟨picks, p, hrun, hlen, hholds, hpicks⟩ :=
    (TTreeBackEnds.refines_ofConfig address descrs).run
    (by rwa [hsize, ne_eq, List.length_eq_zero_iff]) k
  rw [hsize] at hholds hpicks
  refine ⟨picks, p, hrun, hlen, hholds.perm, fun i hi j hj => ?_⟩
  -- at the beginning every weight is one step
  have hfirst : LowestFirst.Spread (Finset.range descrs.length)
      (TBackEnds.ofConfig address descrs).weightStep
      (TBackEnds.ofConfig address descrs).weight := by
    intro a _ b hb
    rw [TBackEnds.weight_ofConfig]
    exact le_add_of_nonneg_left (hstep b (Finset.mem_range.mp hb)).le
  have hspread := hpicks.spread (fun b hb => (hstep b (Finset.mem_range.mp hb)).le) hfirst i
    (Finset.mem_range.mpr hi) j (Finset.mem_range.mpr hj)
  simp only [TBackEnds.weight_ofConfig, TBackEnds.weightStep_ofConfig address descrs hi,
    TBackEnds.weightStep_ofConfig address descrs hj] at hspread
  linarith

/-- Weights 3, 1 and 1/2, after a hundred calls. -/
theorem roundRobin_shares_three :
    ∃ picks p, (TTreeBackEnds.ofConfig (.refl Nat) [{ weight := 3 }, {}, { weight := 1 / 2 }]).run
      100 = some (picks, p) ∧ picks.length = 100 ∧ p.servers.tree.toList.Perm (List.range 3) ∧
      (3 : ℚ) * picks.count 0 ≤ 1 / 2 * (picks.count 2 + 1) := by
  obtain ⟨picks, p, hrun, hlen, hperm, hle⟩ := roundRobin_shares (.refl Nat)
    [{ weight := 3 }, {}, { weight := 1 / 2 }] (List.cons_ne_nil _ _) (by simp) 100
  exact ⟨picks, p, hrun, hlen, hperm, hle 0 (by decide) 2 (by decide)⟩

end RRobin

end Balancer
