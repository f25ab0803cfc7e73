import Balancer.Modules.Balancer.Weighted2
import Balancer.Theory.HighestCredit

/-!
# The shares and the corrections of the weighted policy

A call of `DoNext` is a turn in which the highest credit is picked, so with weights that do not
change the picks follow them (`weighted2_shares`). The callbacks of a request that is scored 0 do
not agree on how the configured weight is factored out (`weighted2_equal_iff`).
-/

namespace Balancer

open Fallible
open Finset (mem_range)

namespace Weighted2

/-! ### One call of `DoNext` -/

namespace TScan

/-- What the loop of `DoNext` has found in `l`, whose first number is `k`. -/
structure Found (l : List TBackEnd) (k : Nat) (s r : TScan) : Prop where
  total : r.total = s.total + (l.map (·.weight)).sum
  le_max : s.max ≤ r.max
  highest : ∀ b ∈ l, b.emergency ≤ r.max
  found : (r.retval = s.retval ∧ r.max = s.max) ∨
    ∃ i, ∃ h : i < l.length, r.retval = k + i ∧ r.max = l[i].emergency

theorem next_cases (s : TScan) (b : TBackEnd) (i : Nat) :
    (b.emergency ≤ s.max ∧ s.next b i = ⟨s.retval, s.max, s.total + b.weight⟩) ∨
      (s.max < b.emergency ∧ s.next b i = ⟨i, b.emergency, s.total + b.weight⟩) := by
  by_cases hgt : b.emergency > s.max
  · exact .inr ⟨hgt, if_pos hgt⟩
  · exact .inl ⟨not_lt.1 hgt, if_neg hgt⟩

theorem loop_found (l : List TBackEnd) (k : Nat) (s : TScan) : Found l k s (s.loop l k) := by
  induction l generalizing k s with
  | nil => exact ⟨(add_zero _).symm, le_refl _, List.forall_mem_nil _, .inl ⟨rfl, rfl⟩⟩
  | cons b l ih =>
    obtain ⟨htotal, hmax, hall, hfound⟩ := ih (k + 1) (s.next b k)
    rw [loop]
    have hlater : ∀ i (h : i < l.length), ((s.next b k).loop l (k + 1)).retval = k + 1 + i →
        ((s.next b k).loop l (k + 1)).max = l[i].emergency →
        ∃ i, ∃ h : i < (b :: l).length, ((s.next b k).loop l (k + 1)).retval = k + i ∧
          ((s.next b k).loop l (k + 1)).max = (b :: l)[i].emergency := by
      intro i h hretval hi
      exact ⟨i + 1, Nat.succ_lt_succ h, by rw [hretval, Nat.add_assoc, Nat.add_comm 1 i], hi⟩
    rcases next_cases s b k with ⟨hle, hnext⟩ | ⟨hlt, hnext⟩
    · rw [hnext] at htotal hmax hall hfound hlater ⊢
      refine ⟨?_, hmax, List.forall_mem_cons.2 ⟨hle.trans hmax, hall⟩, ?_⟩
      · rw [htotal, List.map_cons, List.sum_cons, add_assoc]
      · rcases hfound with hfound | ⟨i, h, hretval, hi⟩
        · exact .inl hfound
        · exact .inr (hlater i h hretval hi)
    · rw [hnext] at htotal hmax hall hfound hlater ⊢
      refine ⟨?_, hlt.le.trans hmax, List.forall_mem_cons.2 ⟨hmax, hall⟩, .inr ?_⟩
      · rw [htotal, List.map_cons, List.sum_cons, add_assoc]
      · rcases hfound with ⟨hretval, hi⟩ | ⟨i, h, hretval, hi⟩
        · exact ⟨0, Nat.succ_pos _, hretval, hi⟩
        · exact hlater i h hretval hi

end TScan

namespace TBackEnds

variable {p p' : TBackEnds}

/-- `Weight_` of the backend of the number `i`. -/
def weight (p : TBackEnds) (i : Nat) : ℚ := (p.backEnds.map (·.weight)).getD i 0

/-- `Emergency_` of the backend of the number `i`. -/
def emergency (p : TBackEnds) (i : Nat) : ℚ := (p.backEnds.map (·.emergency)).getD i 0

theorem weight_eq {i : Nat} (hi : i < p.backEnds.length) : p.weight i = p.backEnds[i].weight := by
  rw [weight, List.getD_eq_getElem _ _ (by rwa [List.length_map]), List.getElem_map]

theorem emergency_eq {i : Nat} (hi : i < p.backEnds.length) :
    p.emergency i = p.backEnds[i].emergency := by
  rw [emergency, List.getD_eq_getElem _ _ (by rwa [List.length_map]), List.getElem_map]

theorem sum_range_getD {M : Type} [AddCommMonoid M] (l : List M) :
    ∑ i ∈ Finset.range l.length, l.getD i 0 = l.sum := by
  induction l with
  | nil => rfl
  | cons x l ih =>
    rw [List.length_cons, Finset.sum_range_succ', List.sum_cons, add_comm]
    simp only [List.getD_cons_zero, List.getD_cons_succ, ih]

theorem sum_weight (p : TBackEnds) :
    ∑ i ∈ Finset.range p.backEnds.length, p.weight i = (p.backEnds.map (·.weight)).sum := by
  rw [← sum_range_getD, List.length_map]
  rfl

/-- The backends after `DoNext` has picked the number `i`. -/
def paid (p : TBackEnds) (i : Nat) (total : ℚ) : TBackEnds :=
  { p with
    backEnds := (p.backEnds.map fun b => b.addEmergency b.weight).modify i
      (·.addEmergency (-total)) }

@[simp] theorem length_paid (p : TBackEnds) (i : Nat) (total : ℚ) :
    (p.paid i total).backEnds.length = p.backEnds.length := by
  rw [paid, List.length_modify, List.length_map]

theorem getElem_paid (i : Nat) (total : ℚ) {j : Nat} (hj : j < (p.paid i total).backEnds.length)
    (hj' : j < p.backEnds.length) :
    (p.paid i total).backEnds[j] = { p.backEnds[j] with
      emergency :=
  p.backEnds[j].emergency + p.backEnds[j].weight + if i = j then -total else 0 } := by
  simp only [paid, List.getElem_modify, List.getElem_map]
  split
  · rfl
  · rw [add_zero]
    rfl

theorem map_paid {α : Type} {f : TBackEnd → α}
    (hf : ∀ (b : TBackEnd) (emergency : ℚ), f { b with emergency } = f b) (i : Nat) (total : ℚ) :
    (p.paid i total).backEnds.map f = p.backEnds.map f := by
  refine List.ext_getElem (by simp) fun j hj hj' => ?_
  rw [List.length_map] at hj hj'
  rw [List.getElem_map, List.getElem_map, getElem_paid i total hj hj', hf]

theorem emergency_paid (i : Nat) (total : ℚ) {j : Nat} (hj : j < p.backEnds.length) :
    (p.paid i total).emergency j = p.emergency j + p.weight j + if i = j then -total else 0 := by
  have hj' : j < (p.paid i total).backEnds.length := by rwa [length_paid]
  rw [emergency_eq hj', emergency_eq hj, weight_eq hj, getElem_paid i total hj' hj]

/-- A call of `DoNext` is a turn in which the highest credit is picked. -/
theorem doNext_turn (hne : p.backEnds ≠ []) (hw : ∀ b ∈ p.backEnds, 0 < b.weight) :
    ∃ i p', p.doNext = some (i, p') ∧ p'.backEnds.map (·.weight) = p.backEnds.map (·.weight) ∧
      HighestCredit.Turn (Finset.range p.backEnds.length) p.weight p.emergency i p'.emergency := by
  obtain ⟨first, rest, hfirst⟩ := List.exists_cons_of_ne_nil hne
  have hfound :=
    TScan.loop_found (p.backEnds.map fun b => b.addEmergency b.weight) 0 ⟨0, first.emergency, 0⟩
  generalize hr : TScan.loop ⟨0, first.emergency, 0⟩
      (p.backEnds.map fun b => b.addEmergency b.weight) 0 = r at hfound
  have hnext : p.doNext = some (r.retval, p.paid r.retval r.total) := by
    rw [doNext, hfirst, List.head?_cons, Option.map_some, ← hfirst, ← hr]
    rfl
  have hearned : ∀ j (hj : j < p.backEnds.length), p.emergency j + p.weight j ≤ r.max := by
    intro j hj
    rw [emergency_eq hj, weight_eq hj]
    exact hfound.highest _ (List.mem_map_of_mem (f := fun b => b.addEmergency b.weight)
      (List.getElem_mem hj))
  -- the first backend has earned something, so the maximum is not the one before the loop
  have hlt : first.emergency < r.max := by
    have hmem : first ∈ p.backEnds := hfirst ▸ List.mem_cons_self
    have hle := hfound.highest _ (List.mem_map_of_mem (f := fun b => b.addEmergency b.weight) hmem)
    exact (lt_add_of_pos_right _ (hw first hmem)).trans_le hle
  obtain ⟨i, hi, hretval, hmax⟩ := hfound.found.resolve_left fun h => absurd h.2 hlt.ne'
  rw [List.length_map] at hi
  rw [Nat.zero_add] at hretval
  rw [List.getElem_map] at hmax
  have hpicked : p.emergency i + p.weight i = r.max := by
    rw [emergency_eq hi, weight_eq hi, hmax]
    rfl
  have htotal : r.total = ∑ j ∈ Finset.range p.backEnds.length, p.weight j := by
    rw [hfound.total, zero_add, List.map_map, sum_weight]
    rfl
  refine ⟨i, p.paid i r.total, hretval ▸ hnext, map_paid (fun _ _ => rfl) .., mem_range.2 hi,
    fun j hj => ?_, ?_, ?_⟩
  · rw [hpicked]
    exact hearned j (mem_range.1 hj)
  · rw [emergency_paid i r.total hi, if_pos rfl, htotal, sub_eq_add_neg]
  · intro j hj hne
    rw [emergency_paid i r.total (mem_range.1 hj), if_neg hne.symm, add_zero]

/-- Calls of `DoNext` are such turns, one after the other. -/
theorem run_turns (hne : p.backEnds ≠ []) (hw : ∀ b ∈ p.backEnds, 0 < b.weight) (k : Nat) :
    ∃ picks p', p.run k = some (picks, p') ∧ picks.length = k ∧
      p'.backEnds.map (·.weight) = p.backEnds.map (·.weight) ∧
      HighestCredit.Turns (Finset.range p.backEnds.length) p.weight p.emergency picks
        p'.emergency := by
  induction k generalizing p with
  | zero => exact ⟨[], p, rfl, rfl, rfl, .nil _⟩
  | succ k ih =>
    obtain ⟨i, p₁, hnext, hweights, hturn⟩ := doNext_turn hne hw
    have hlen : p₁.backEnds.length = p.backEnds.length := by
      rw [← List.length_map (·.weight), hweights, List.length_map]
    have hne₁ : p₁.backEnds ≠ [] := by
      rwa [← List.length_pos_iff, hlen, List.length_pos_iff]
    have hw₁ : ∀ b ∈ p₁.backEnds, 0 < b.weight := by
      intro b hb
      have hmem : b.weight ∈ p.backEnds.map (·.weight) := hweights ▸ List.mem_map_of_mem hb
      obtain ⟨c, hc, hcb⟩ := List.mem_map.1 hmem
      exact hcb ▸ hw c hc
    have hweight : p₁.weight = p.weight := by
      funext j
      rw [weight, weight, hweights]
    obtain ⟨picks, p', hrun, hpicks, hweights', hturns⟩ := ih hne₁ hw₁
    rw [hlen, hweight] at hturns
    refine ⟨i :: picks, p', ?_, congrArg (· + 1) hpicks, hweights'.trans hweights,
      .cons hturn hturns⟩
    rw [run, hnext, Option.bind_some, hrun, Option.map_some]

end TBackEnds

open TBackEnds

/-- For all backends with positive weights and no emergency yet, and any number of calls: `DoNext`
returns, the emergencies add up to 0 and stay above minus the sum of the weights, and the picks of a
backend stay near its share. With whole weights, every cycle picks each backend as often as its
weight says and leaves no emergency. -/
theorem weighted2_shares (p : TBackEnds) (hne : p.backEnds ≠ [])
    (hw : ∀ b ∈ p.backEnds, 0 < b.weight) (he : ∀ b ∈ p.backEnds, b.emergency = 0) (k : Nat) :
    ∃ picks p', p.run k = some (picks, p') ∧ picks.length = k ∧
      p'.backEnds.map (·.weight) = p.backEnds.map (·.weight) ∧
      (p'.backEnds.map (·.emergency)).sum = 0 ∧
      (∀ b ∈ p'.backEnds, -(p.backEnds.map (·.weight)).sum < b.emergency) ∧
      (∀ i (hi : i < p.backEnds.length),
        k * p.backEnds[i].weight / (p.backEnds.map (·.weight)).sum - (p.backEnds.length - 1 : ℕ) ≤
          picks.count i ∧
        picks.count i < k * p.backEnds[i].weight / (p.backEnds.map (·.weight)).sum + 1) ∧
      ∀ v : List ℕ, p.backEnds.map (·.weight) = v.map Nat.cast → ∀ m, k = (m + 1) * v.sum →
        (∀ b ∈ p'.backEnds, b.emergency = 0) ∧ ∃ before cycle, picks = before ++ cycle ∧
          before.length = m * v.sum ∧ ∀ i (hi : i < v.length), cycle.count i = v[i] := by
  obtain ⟨picks, p', hrun, hlen, hweights, hturns⟩ := run_turns hne hw k
  have hsize : p'.backEnds.length = p.backEnds.length := by
    rw [← List.length_map (·.weight), hweights, List.length_map]
  have hpos : ∀ i ∈ Finset.range p.backEnds.length, 0 < p.weight i := by
    intro i hi
    rw [weight_eq (mem_range.1 hi)]
    exact hw _ (List.getElem_mem _)
  have hzero : ∀ i ∈ Finset.range p.backEnds.length, p.emergency i = 0 := by
    intro i hi
    rw [emergency_eq (mem_range.1 hi)]
    exact he _ (List.getElem_mem _)
  obtain ⟨hsum, hlow⟩ := hturns.of_zero hpos hzero
  rw [sum_weight] at hlow
  refine ⟨picks, p', hrun, hlen, hweights, ?_, ?_, ?_, ?_⟩
  · rw [← sum_range_getD, List.length_map, hsize]
    exact hsum
  · intro b hb
    obtain ⟨i, hi, rfl⟩ := List.getElem_of_mem hb
    rw [← emergency_eq hi]
    exact hlow i (mem_range.2 (hsize ▸ hi))
  · intro i hi
    have hle := hturns.le_count hpos hzero (mem_range.2 hi)
    have hlt := hturns.count_lt hpos hzero (mem_range.2 hi)
    rw [sum_weight, weight_eq hi, hlen] at hle hlt
    rw [Finset.card_range] at hle
    exact ⟨hle, hlt⟩
  · intro v hv m hk
    have hvlen : v.length = p.backEnds.length := by
      rw [← List.length_map (f := (Nat.cast : ℕ → ℚ)), ← hv, List.length_map]
    have hvw : ∀ i ∈ Finset.range p.backEnds.length, p.weight i = ((v.getD i 0 : ℕ) : ℚ) := by
      intro i hi
      have hi' : i < v.length := hvlen ▸ mem_range.1 hi
      rw [weight, hv, List.getD_eq_getElem _ _ (by rwa [List.length_map]), List.getElem_map,
        List.getD_eq_getElem _ _ hi']
    have hvsum : ∑ i ∈ Finset.range p.backEnds.length, v.getD i 0 = v.sum := by
      rw [← hvlen, sum_range_getD]
    obtain ⟨before, cycle, hsplit, hbefore, hcycle⟩ :=
      hturns.cycle hpos hzero hvw (m := m) (by rw [hlen, hk, hvsum])
    rw [hvsum] at hbefore
    refine ⟨fun b hb => ?_, before, cycle, hsplit, hbefore, fun i hi => ?_⟩
    · obtain ⟨i, hi, rfl⟩ := List.getElem_of_mem hb
      rw [← emergency_eq hi]
      exact (hcycle i (mem_range.2 (hsize ▸ hi))).1
    · rw [(hcycle i (mem_range.2 (hvlen ▸ hi))).2, List.getD_eq_getElem _ _ hi]

/-- A backend of the given weight, without emergency. -/
def TBackEnd.fresh (weight : ℚ) : TBackEnd :=
  { backEnd := {}, weight, qualityData := { v := 0, t := 0, sum := 0, ttl := 0 },
    lastCheckedTime := 0 }

/-- Weights 2 and 1: the second cycle of three calls. -/
theorem weighted2_shares_two :
    ∃ picks p', run 6 { backEnds := [.fresh 2, .fresh 1] } = some (picks, p') ∧ picks.length = 6 ∧
      (∀ b ∈ p'.backEnds, b.emergency = 0) ∧ ∃ before cycle, picks = before ++ cycle ∧
      before.length = 3 ∧
        cycle.count 0 = 2 ∧ cycle.count 1 = 1 := by
  obtain ⟨picks, p', hrun, hlen, -, -, -, -, hcycle⟩ :=
    weighted2_shares { backEnds := [.fresh 2, .fresh 1] }
    (List.cons_ne_nil _ _) (by simp [TBackEnd.fresh]) (by simp [TBackEnd.fresh]) 6
  obtain ⟨hzero, before, cycle, hpicks, hbefore, hcount⟩ :=
    hcycle [2, 1] (by simp [TBackEnd.fresh]) 1 (by simp)
  exact ⟨picks, p', hrun, hlen, hzero, before, cycle, hpicks, hbefore, hcount 0 (by simp),
    hcount 1 (by simp)⟩

/-! ### Two callbacks of equal quality -/

/-- What a map of a list through a function that can fail keeps. -/
theorem map_of_mapM {α β γ : Type} {f : α → Except TFault β} {g : β → γ} {h : α → γ}
    (hf : ∀ a b, f a = .ok b → g b = h a) {l : List α} {rs : List β} (hl : l.mapM f = .ok rs) :
    rs.map g = l.map h := by
  induction l generalizing rs with
  | nil =>
    cases hl
    rfl
  | cons a l ih =>
    rw [List.mapM_cons] at hl
    obtain ⟨b, hb, hl⟩ := bind_eq_ok.1 hl
    obtain ⟨bs, hbs, hl⟩ := bind_eq_ok.1 hl
    cases hl
    rw [List.map_cons, List.map_cons, hf a b hb, ih hbs]

/-- What the callbacks leave alone in a backend, up to the weight. -/
def TBackEnd.kept (b : TBackEnd) : TBackEndDescriptor × ℚ := (b.backEnd, b.emergency)

theorem TBackEnd.kept_getQuality {now : TInstant} {b : TBackEnd} {r : (ℚ × Nat) × TBackEnd}
    (h : b.getQuality now = .ok r) : r.2.kept = b.kept := by
  obtain ⟨q, -, rfl⟩ := map_eq_ok.1 h
  rfl

theorem TBackEnd.kept_correct {params : TCorrectionParams} {now : TInstant} {avg cur : ℚ}
    {b : TBackEnd} {r : ℚ × TBackEnd} (h : b.correct params now avg cur = .ok r) :
    r.2.kept = b.kept := by
  obtain ⟨q, hq, h⟩ := bind_eq_ok.1 h
  obtain ⟨w, -, h⟩ := bind_eq_ok.1 h
  have hb := TBackEnd.kept_getQuality hq
  dsimp only at h
  split at h <;> cases h <;> exact hb

namespace TBackEnds

variable {p : TBackEnds} {now : TInstant} {i : Nat}

theorem backEnd_eq_ok {b : TBackEnd} : p.backEnd i = .ok b ↔ p.backEnds[i]? = some b := by
  unfold backEnd
  cases p.backEnds[i]? with
  | none => simp
  | some c => simp

theorem kept_getAvgQuality {avg : ℚ × TBackEnds} (h : p.getAvgQuality now = .ok avg) :
    avg.2.params = p.params ∧ avg.2.backEnds.map (·.kept) = p.backEnds.map (·.kept) := by
  obtain ⟨rs, hrs, h⟩ := bind_eq_ok.1 h
  have hmap : (rs.map (·.2)).map (·.kept) = p.backEnds.map (·.kept) := by
    rw [List.map_map]
    exact map_of_mapM (fun _ _ => TBackEnd.kept_getQuality) hrs
  dsimp only at h
  split at h
  · obtain ⟨q, -, h⟩ := bind_eq_ok.1 h
    cases h
    exact ⟨rfl, hmap⟩
  · cases h
    exact ⟨rfl, hmap⟩

/-- For a backend of the configured weight 1, it does not matter whether the weight is factored
out. -/
theorem onRequest_of_weight_one {b : TBackEnd} (hb : p.backEnds[i]? = some b)
    (hw : b.backEnd.weight = 1) (quality : ℚ) :
    p.onRequest now i quality (fun b => TFault.div b.weight b.backEnd.weight)
        (fun b weight => weight * b.backEnd.weight) =
      p.onRequest now i quality (fun b => .ok b.weight) (fun _ weight => weight) := by
  unfold onRequest
  rw [backEnd_eq_ok.2 hb, ok_bind, ok_bind]
  refine bind_congr fun qualityData => ?_
  cases havg : getAvgQuality now { p with backEnds := p.backEnds.set i { b with qualityData } } with
  | error e => rfl
  | ok avg =>
    rw [ok_bind, ok_bind]
    cases hb' : avg.2.backEnd i with
    | error e => rfl
    | ok b' =>
      have hw' : b'.backEnd.weight = 1 := by
        have hmap := congrArg (·[i]?) (kept_getAvgQuality havg).2
        have hi : i < p.backEnds.length := (List.getElem?_eq_some_iff.1 hb).1
        simp only [List.getElem?_map, backEnd_eq_ok.1 hb', List.getElem?_set_self hi,
          Option.map_some, Option.some.injEq] at hmap
        rw [(Prod.mk.inj hmap).1, hw]
      have hcur : TFault.div b'.weight b'.backEnd.weight = .ok b'.weight := by
        rw [hw', TFault.div, if_neg one_ne_zero, div_one]
      simp only [ok_bind, hcur]
      cases hr : b'.correct p.params now avg.1 b'.weight with
      | error e => rfl
      | ok r =>
        rw [ok_bind, ok_bind, (Prod.mk.inj (TBackEnd.kept_correct hr)).1, hw', mul_one]

/-- `Weight_` of all backends. -/
def weights (p : TBackEnds) : List ℚ := p.backEnds.map (·.weight)

/-! ### The first request of a backend -/

/-- A backend of the configured weight `w` with `total` requests of the quality 0. -/
def scored (w : ℚ) (total : Nat) : TBackEnd :=
  { backEnd := { weight := w }, qualityData := { v := 0, t := 0, total, sum := 0, ttl := 20000000 },
    lastCheckedTime := 0 }

/-- Two backends, of the weights `w` and `2|w|`, as they are at the beginning. -/
def pair (w : ℚ) : TBackEnds :=
  .ofConfig [.backEnd 0 0 0 0 { weight := w }, .backEnd 0 0 0 0 { weight := 2 * |w| }]

theorem corrected_zero (cur : ℚ) : TBackEnd.corrected {} (0, 1) 0 cur = .ok (1 / 10) := by
  have hhistory : (TDuration.seconds 20000000).toNat = 20 := rfl
  have hfeedback : (TDuration.seconds 100000000).toNat = 100 := rfl
  norm_num [TBackEnd.corrected, TFault.div, hhistory, hfeedback]

theorem scored_getQuality (w : ℚ) : (scored w 1).getQuality 0 = .ok ((0, 1), scored w 1) := by
  simp [scored, TBackEnd.getQuality, TTimeLimitedAvgTracker.get, TTimeLimitedAvgTracker.check,
    TTimeLimitedAvgTracker.checkLoop, Except.map]

/-- The lower restriction decides, whatever the current weight is. -/
theorem scored_correct (w cur : ℚ) :
    (scored w 1).correct {} 0 0 cur = .ok (9 / 10, scored w 1) := by
  have hrestrict : (scored w 1).restrict {} (1 / 10) = 9 / 10 := by
    norm_num [TBackEnd.restrict, scored]
  have htime : ¬((0 : TInstant) - (scored w 1).lastCheckedTime > 1000000) := by
    show ¬((0 : TInstant) - 0 > 1000000)
    decide
  rw [TBackEnd.correct, scored_getQuality, ok_bind, corrected_zero, ok_bind]
  simp only [hrestrict, if_neg htime]

theorem pair_onRequest (w : ℚ) (cur : TBackEnd → Except TFault ℚ) (new : TBackEnd → ℚ → ℚ) :
    (pair w).onRequest 0 0 0 cur new = cur (scored w 1) >>= fun _ =>
      normalize { backEnds := [{ scored w 1 with weight := new (scored w 1) (9 / 10) },
        scored (2 * |w|) 0] } := by
  have hcorrect : (pair w).onRequest 0 0 0 cur new = cur (scored w 1) >>= fun c =>
      (scored w 1).correct {} 0 0 c >>= fun r =>
        normalize { backEnds := [{ r.2 with weight := new r.2 r.1 }, scored (2 * |w|) 0] } := by
    simp [-one_div, pair, scored, onRequest, ofConfig, parse, add, backEnd,
      TTimeLimitedAvgTracker.add, getAvgQuality, TBackEnd.getQuality, TTimeLimitedAvgTracker.get,
      TTimeLimitedAvgTracker.check, TTimeLimitedAvgTracker.checkLoop, Except.map, TFault.div]
  simp only [hcorrect, scored_correct, ok_bind]

/-- `Weight_` after `Normalize(c)`, for a backend of the configured weight `w`. -/
def clamp (w x : ℚ) : ℚ := min (5 * w) (max (5 / 100 * w) x)

theorem pair_normalize (w x : ℚ) :
    (normalize { backEnds := [{ scored w 1 with weight := x }, scored (2 * |w|) 0] }).map weights =
      (TFault.div (w + 2 * |w|) (x + 1)).map fun c =>
        [clamp w (x * c), clamp (2 * |w|) (1 * c)] := by
  have hsum : ([{ scored w 1 with weight := x }, scored (2 * |w|) 0].map (·.weight)).sum =
    x + 1 := by
    simp [scored]
  have hstart : ([{ scored w 1 with weight := x }, scored (2 * |w|) 0].map (·.backEnd.weight)).sum =
    w + 2 * |w| := by
    simp [scored]
  simp only [normalize, hsum, hstart]
  cases TFault.div (w + 2 * |w|) (x + 1) with
  | error e => rfl
  | ok c => rfl

/-- A value that was clamped to one strictly between the bounds was not changed. -/
theorem eq_of_clamp_eq {w x y : ℚ} (h : clamp w x = y) (hlow : 5 / 100 * w < y)
    (hhigh : y < 5 * w) : x = y := by
  unfold clamp at h
  rcases min_cases (5 * w) (max (5 / 100 * w) x) with ⟨hmin, -⟩ | ⟨hmin, -⟩
  · rw [hmin] at h
    exact absurd h hhigh.ne'
  · rcases max_cases (5 / 100 * w) x with ⟨hmax, -⟩ | ⟨hmax, -⟩
    · rw [hmin, hmax] at h
      exact absurd h hlow.ne
    · rw [hmin, hmax] at h
      exact h

theorem pair_onFailRequest (w : ℚ) :
    ((pair w).onFailRequest 0 0 2000000).map weights =
      .ok [clamp w (9 / 10 * ((w + 2 * |w|) / (9 / 10 + 1))),
        clamp (2 * |w|) (1 * ((w + 2 * |w|) / (9 / 10 + 1)))] := by
  have hquality : (pair w).estimator.onFailRequest 2000000 = 0 := rfl
  have hsum : (9 / 10 + 1 : ℚ) ≠ 0 := by norm_num
  rw [onFailRequest, hquality, pair_onRequest, ok_bind, pair_normalize, TFault.div, if_neg hsum]
  rfl

theorem pair_onCompleteRequest (w : ℚ) :
    ((pair w).onCompleteRequest 0 0 2000000).map weights =
      (TFault.div 1 w >>= fun _ => TFault.div (w + 2 * |w|) (9 / 10 * w + 1)).map fun c =>
        [clamp w (9 / 10 * w * c), clamp (2 * |w|) (1 * c)] := by
  have hquality : (pair w).estimator.onCompleteRequest 2000000 = 0 := by
    show TEstimator.answerTime.onCompleteRequest 2000000 = 0
    decide +kernel
  have hweight : TFault.div (scored w 1).weight (scored w 1).backEnd.weight = TFault.div 1 w := rfl
  rw [onCompleteRequest, hquality, pair_onRequest, hweight]
  cases TFault.div 1 w with
  | error e => rfl
  | ok c =>
    rw [ok_bind, ok_bind, ← pair_normalize]
    rfl

/-- The first completed request of quality 0 and the first failed one leave different weights,
unless the configured weight is 1. -/
theorem pair_ne {w : ℚ} (hw : w ≠ 1) :
    ((pair w).onCompleteRequest 0 0 2000000).map weights ≠
      ((pair w).onFailRequest 0 0 2000000).map weights := by
  intro h
  rw [pair_onCompleteRequest, pair_onFailRequest] at h
  obtain ⟨c, hc, hweights⟩ := map_eq_ok.1 h
  obtain ⟨_, hdiv, hc⟩ := bind_eq_ok.1 hc
  have hw0 : w ≠ 0 := by
    rintro rfl
    cases hdiv
  have hsum : 9 / 10 * w + 1 ≠ 0 := by
    intro h0
    rw [TFault.div, if_pos h0] at hc
    cases hc
  rw [TFault.div, if_neg hsum, Except.ok.injEq] at hc
  -- the second backend is strictly between its bounds after the failed request
  have hpos : 0 < |w| := abs_pos.2 hw0
  have hlow : |w| ≤ w + 2 * |w| := by linarith [neg_abs_le w]
  have hhigh : w + 2 * |w| ≤ 3 * |w| := by linarith [le_abs_self w]
  have hfail : 1 * ((w + 2 * |w|) / (9 / 10 + 1)) = 10 / 19 * (w + 2 * |w|) := by ring
  have hlist := (List.cons_eq_cons.1 (List.cons_eq_cons.1 hweights).2).1
  have hbetween : clamp (2 * |w|) (10 / 19 * (w + 2 * |w|)) = 10 / 19 * (w + 2 * |w|) := by
    rw [clamp, max_eq_right (by linarith), min_eq_right (by linarith)]
  rw [hfail, hbetween] at hlist
  have heq := eq_of_clamp_eq hlist (by linarith) (by linarith)
  rw [one_mul, ← hc, div_eq_iff hsum] at heq
  have hone : 10 / 19 * (9 / 10 * w + 1) = 1 :=
    mul_left_cancel₀ (hpos.trans_le hlow).ne' (by linear_combination -heq)
  exact hw (by linarith)

end TBackEnds

/-- For every configured weight: in all reachable states of all pools, the two callbacks of a
backend of this weight agree on every answer time that is scored 0 iff the weight is 1. -/
theorem weighted2_equal_iff (w : ℚ) :
    (∀ items es p, system.run (.ofConfig items) es = some p → ∀ i b, p.backEnds[i]? = some b →
      b.backEnd.weight = w → ∀ answerTime now, p.estimator.onCompleteRequest answerTime = 0 →
        (p.onCompleteRequest now i answerTime).map weights =
          (p.onFailRequest now i answerTime).map weights) ↔
      w = 1 := by
  constructor
  · intro h
    by_contra hw
    refine pair_ne hw (h [.backEnd 0 0 0 0 { weight := w },
      .backEnd 0 0 0 0 { weight := 2 * |w| }] [] _ rfl 0 _ rfl
      rfl 2000000 0 ?_)
    show TEstimator.answerTime.onCompleteRequest 2000000 = 0
    decide +kernel
  · intro hw items es p _ i b hb hbw answerTime now hzero
    have hfail : p.estimator.onFailRequest answerTime = 0 := rfl
    rw [onCompleteRequest, onFailRequest, hzero, hfail, onRequest_of_weight_one hb (hbw.trans hw)]

/-- Weights 2 and 4: a completed request of quality 0 leaves the first backend heavier than a failed
one. -/
theorem weighted2_weight_two :
    (pair 2).estimator.onCompleteRequest 2000000 = 0 ∧
      ((pair 2).onCompleteRequest 0 0 2000000).map weights = .ok [27 / 7, 15 / 7] ∧
      ((pair 2).onFailRequest 0 0 2000000).map weights = .ok [54 / 19, 60 / 19] := by
  refine ⟨by decide +kernel, ?_⟩
  rw [pair_onCompleteRequest, pair_onFailRequest]
  norm_num [TFault.div, clamp, Except.map]

end Weighted2

end Balancer
