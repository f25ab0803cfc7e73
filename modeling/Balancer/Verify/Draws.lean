import Balancer.Modules.Balancer.Fair
import Balancer.Modules.Balancer.PidGroup
import Balancer.Modules.Balancer.Robust
import Balancer.Verify.Trackers

/-!
# The weights of the policies that draw

In every run the weights stay positive and a draw ends with a backend. `fair.cpp` and `robust.cpp`
draw below the sum of the weights that they have just added up. `pidgroup.cpp` draws below 1, which
the weights add up to only after a request has come back (`pidGroup_iff`).
-/

namespace Balancer

open Fallible TMiddleValueTracker TFault

/-- A draw below the sum of the weights ends with one of them. -/
theorem exists_walk_gt {ws : List ℚ} {rnd : ℚ} (hne : ws ≠ []) (h : rnd < ws.sum) :
    ∃ i < ws.length, Walk.walk (· > rnd) 0 ws = some i := by
  have henough : 0 + ws.sum > rnd := by rwa [zero_add]
  obtain ⟨i, hi⟩ : ∃ i, Walk.walk (· > rnd) 0 ws = some i := Walk.exists_walk hne henough
  exact ⟨i, Walk.walk_lt hi, hi⟩

theorem sum_map_pos {β : Type} {l : List β} {w : β → ℚ} (hne : l ≠ []) (h : ∀ b ∈ l, 0 < w b) :
    0 < (l.map w).sum := by
  refine List.sum_pos _ (fun x hx => ?_) (by simpa using hne)
  obtain ⟨b, hb, rfl⟩ := List.mem_map.1 hx
  exact h b hb

/-! ### `pidgroup.cpp` -/

namespace PidGroup

/-- The fields of a backend that its weight is computed from. -/
structure TBackEnd.Sound (b : TBackEnd) : Prop where
  balanceWeight : 0 < b.balanceWeight
  data : 0 < b.data
  timeRate : 0 ≤ b.timeRate.s
  coeff : b.timeRate.coeff = 9 / 10

/-- `n` backends, and the search time. -/
structure TBackEnds.Sound (n : Nat) (p : TBackEnds) : Prop where
  length : p.backEnds.length = n
  backEnds : ∀ b ∈ p.backEnds, b.Sound
  searchTime : 0 ≤ p.searchTime.s
  coeff : p.searchTime.coeff = 99 / 100

/-- The weights are positive and enough for every threshold. -/
structure TBackEnds.Ready (n : Nat) (p : TBackEnds) : Prop where
  sound : p.Sound n
  weight : ∀ b ∈ p.backEnds, 0 < b.weight
  sum : 1 ≤ (p.backEnds.map (·.weight)).sum

namespace TBackEnd

variable {b : TBackEnd}

/-- What `share` computes. -/
def part (b : TBackEnd) : ℚ := b.balanceWeight / (b.data + 1 / 10000)

theorem Sound.share (h : b.Sound) : b.share = .ok b.part ∧ 0 < b.part := by
  have hpos : 0 < b.data + 1 / 10000 := by linarith [h.data]
  exact ⟨div_of_ne hpos.ne', div_pos h.balanceWeight hpos⟩

theorem Sound.weigh (h : b.Sound) {sum : ℚ} (hsum : sum ≠ 0) :
    b.weigh sum = .ok (warm { b with weight := b.part / sum }) ∧
      (warm { b with weight := b.part / sum }).Sound := by
  refine ⟨?_, h.balanceWeight, mul_pos h.data (by norm_num [warmCoeff]), h.timeRate, h.coeff⟩
  rw [TBackEnd.weigh, h.share.1, ok_bind, div_of_ne hsum, ok_bind]

/-- The prediction is not negative: it is twice the new time without the old one only if that is
less than one and a half times the new one. -/
theorem Sound.normalize (h : b.Sound) {searchTime answerTime : ℚ} (hsearch : 0 ≤ searchTime)
    (hanswer : 0 ≤ answerTime) : ∃ b', b.normalize searchTime answerTime = .ok b' ∧ b'.Sound := by
  obtain ⟨hnew, hcoeff⟩ := add_nonneg h.coeff (by norm_num) (by norm_num) h.timeRate hanswer
  have hdiv : 0 < searchTime + 1 := by linarith
  refine ⟨_, bind_eq_ok.2 ⟨_, div_of_ne hdiv.ne', rfl⟩, h.balanceWeight, ?_, hnew, hcoeff⟩
  refine div_pos ?_ hdiv
  split
  · next hgt =>
    simp only [TMiddleValueTracker.m] at hgt ⊢
    linarith
  · simp only [TMiddleValueTracker.m]
    linarith

end TBackEnd

namespace TBackEnds

variable {n : Nat} {p : TBackEnds}

/-- After `Normalize()` the weights add up to 1. -/
theorem Sound.normalize (h : p.Sound n) (hn : 0 < n) : ∃ p', p.normalize = .ok p' ∧ p'.Ready n := by
  have hne : p.backEnds ≠ [] := List.length_pos_iff.1 (h.length ▸ hn)
  have hsum := sum_map_pos hne fun b hb => (h.backEnds b hb).share.2
  have hshares := mapM_eq fun b hb => (h.backEnds b hb).share.1
  have hweighed := mapM_eq fun b hb => ((h.backEnds b hb).weigh hsum.ne').1
  refine ⟨_, bind_eq_ok.2 ⟨_, hshares, bind_eq_ok.2 ⟨_, hweighed, rfl⟩⟩,
    ⟨?_, ?_, h.searchTime, h.coeff⟩,
    ?_, ?_⟩
  · rw [List.length_map, h.length]
  · exact List.forall_mem_map.2 fun b hb => ((h.backEnds b hb).weigh hsum.ne').2
  · exact List.forall_mem_map.2 fun b hb => div_pos (h.backEnds b hb).share.2 hsum
  · rw [List.map_map]
    have hone : (p.backEnds.map fun b => b.part / (p.backEnds.map (·.part)).sum).sum = 1 := by
      simp only [div_eq_mul_inv]
      rw [List.sum_map_mul_right]
      exact mul_inv_cancel₀ hsum.ne'
    exact hone.ge

/-- The end of a request normalizes, whatever the weights were before. -/
theorem Sound.onRequest (h : p.Sound n) {i : Nat} (hi : i < n) {answerTime time : ℚ}
    (hanswer : 0 ≤ answerTime) (htime : 0 ≤ time) :
    ∃ p', p.onRequest i answerTime time = .ok p' ∧ p'.Ready n := by
  obtain ⟨hsearch, hcoeff⟩ :=
    add_nonneg h.coeff (by norm_num) (by norm_num) h.searchTime hanswer
  have hi' : i < p.backEnds.length := h.length ▸ hi
  obtain ⟨b, hb, hsound⟩ := (h.backEnds _ (List.getElem_mem hi')).normalize hsearch htime
  have hset : Sound n
      { backEnds := p.backEnds.set i b, searchTime := p.searchTime.add answerTime } := by
    refine ⟨by rw [List.length_set, h.length], fun c hc => ?_, hsearch, hcoeff⟩
    rcases List.mem_or_eq_of_mem_set hc with hc | rfl
    · exact h.backEnds c hc
    · exact hsound
  obtain ⟨p', hp', hready⟩ := hset.normalize (Nat.zero_lt_of_lt hi)
  exact ⟨p', bind_eq_ok.2 ⟨_, modifyBackEnd_eq hi' hb, hp'⟩, hready⟩

theorem Ready.doNext (h : p.Ready n) (hn : 0 < n) {threshold : ℚ} (ht : Drawn threshold) :
    ∃ i < n, p.doNext threshold = some i := by
  have hne : p.backEnds.map (·.weight) ≠ [] := by
    rw [ne_eq, List.map_eq_nil_iff, ← List.length_eq_zero_iff, h.sound.length]
    exact hn.ne'
  have henough : 0 + (p.backEnds.map (·.weight)).sum ≥ threshold := by
    rw [zero_add]
    exact ht.2.le.trans h.sum
  obtain ⟨i, hi⟩ : ∃ i, Walk.walk (· ≥ threshold) 0 (p.backEnds.map (·.weight)) = some i :=
    Walk.exists_walk hne henough
  refine ⟨i, ?_, hi⟩
  rw [← h.sound.length, ← List.length_map (·.weight)]
  exact Walk.walk_lt hi

theorem Ready.step (h : p.Ready n) (hn : 0 < n) (e : TDrawEvent) (he : e.Within n) :
    ∃ p', p.step e = .ok p' ∧ p'.Ready n := by
  cases e with
  | doNext random =>
    obtain ⟨i, -, hi⟩ := h.doNext hn he
    exact ⟨p, if_pos (Option.isSome_of_eq_some hi), h⟩
  | onCompleteRequest i duration =>
    exact h.sound.onRequest he (Nat.cast_nonneg _) (Nat.cast_nonneg _)
  | onFailRequest i duration =>
    exact h.sound.onRequest he (Nat.cast_nonneg _) (by norm_num [failAnswerTime])

theorem sound_ofConfig {descrs : List TBackEndDescriptor} (hpos : ∀ d ∈ descrs, 0 < d.weight) :
    (ofConfig descrs).Sound descrs.length where
  length := List.length_map _
  backEnds := List.forall_mem_map.2 fun d hd =>
    ⟨hpos d hd, one_pos, by norm_num [TBackEnd.ofDescr], rfl⟩
  searchTime := by norm_num [ofConfig]
  coeff := rfl

end TBackEnds

open TBackEnds

/-- For all positive weights: in every run of events all weights are positive, they add up to at
least 1 and `DoNext` returns a backend for every threshold, iff the configured weights add up to at
least 1. -/
theorem pidGroup_iff (descrs : List TBackEndDescriptor) (hne : descrs ≠ [])
    (hpos : ∀ d ∈ descrs, 0 < d.weight) : (∀ es, (∀ e ∈ es, TDrawEvent.Within descrs.length e) →
      ∃ p, (ofConfig descrs).run es = .ok p ∧ (∀ b ∈ p.backEnds, 0 < b.weight) ∧
        1 ≤ (p.backEnds.map (·.weight)).sum ∧
        ∀ threshold, Drawn threshold → ∃ i < descrs.length, p.doNext threshold = some i) ↔
      1 ≤ (descrs.map (·.weight)).sum := by
  have hweights : (ofConfig descrs).backEnds.map (·.weight) = descrs.map (·.weight) := List.map_map
  constructor
  · intro h
    obtain ⟨p, hp, -, hsum, -⟩ := h [] (List.forall_mem_nil _)
    cases hp
    rwa [hweights] at hsum
  · intro hsum es hes
    have hn : 0 < descrs.length := List.length_pos_iff.2 hne
    have hready : (ofConfig descrs).Ready descrs.length :=
      ⟨sound_ofConfig hpos, List.forall_mem_map.2 hpos, hweights ▸ hsum⟩
    obtain ⟨p, hrun, hp⟩ :=
      TDrawEvent.run_invariant (fun p e hp he => Ready.step hp hn e he) hready hes
    exact ⟨p, hrun, hp.weight, hp.sum, fun threshold ht => hp.doNext hn ht⟩

/-- Two backends whose weights add up to more than 1. -/
theorem pidGroup_two :
    ∃ p, (ofConfig [{ weight := 1 / 2 }, { weight := 3 }]).run
      [.doNext (1 / 3), .onFailRequest 1 7] = .ok p ∧
      (∀ b ∈ p.backEnds, 0 < b.weight) ∧ ∃ i < 2, p.doNext (9 / 10) = some i := by
  obtain ⟨p, hrun, hpos, -, hnext⟩ :=
    (pidGroup_iff [{ weight := 1 / 2 }, { weight := 3 }] (List.cons_ne_nil _ _) (by simp)).2
      (by norm_num) [.doNext (1 / 3), .onFailRequest 1 7] (by norm_num [TDrawEvent.Within, Drawn])
  exact ⟨p, hrun, hpos, hnext (9 / 10) (by norm_num [Drawn])⟩

/-- One backend of the weight 1/2: before its first request has come back, a threshold of 3/4 finds
nothing. -/
theorem pidGroup_null :
    ((ofConfig [{ weight := 1 / 2 }]).backEnds.map (·.weight)).sum = 1 / 2 ∧ Drawn (3 / 4) ∧
      (ofConfig [{ weight := 1 / 2 }]).doNext (3 / 4) = none := by
  refine ⟨by norm_num [ofConfig, TBackEnd.ofDescr], by norm_num [Drawn], ?_⟩
  norm_num [doNext, ofConfig, TBackEnd.ofDescr, Walk.walk]

end PidGroup

/-! ### `fair.cpp` -/

namespace Fair

structure TBackEnd.Sound (b : TBackEnd) : Prop where
  backEnd : 0 < b.backEnd.weight
  answerTime : b.answerTime.Sound
  failures : 0 ≤ b.failures.s
  coeff : b.failures.coeff = 85 / 100
  weight : 0 < b.weight

namespace TBackEnd

variable {b : TBackEnd}

theorem calcWeight_pos {backEnd : TBackEndDescriptor} {answerTime : TMedianTracker 100}
    {failures : TMiddleValueTracker} (hw : 0 < backEnd.weight) (ht : answerTime.Sound)
    (hf : 0 ≤ failures.s) : ∃ w, calcWeight backEnd answerTime failures = .ok w ∧ 0 < w := by
  obtain ⟨t, ht⟩ := ht.get (by norm_num) (by norm_num : 90 ≤ 100)
  have hden : 0 < 1 + backEnd.weight * t * (1 + failures.m) := by
    have hprod : 0 ≤ backEnd.weight * t * (1 + failures.s) := by positivity
    exact add_pos_of_pos_of_nonneg one_pos hprod
  refine ⟨_, bind_eq_ok.2 ⟨t, ht, div_of_ne hden.ne'⟩, div_pos (by norm_num) hden⟩

theorem exists_ofDescr {descr : TBackEndDescriptor} (hw : 0 < descr.weight) :
    ∃ b, ofDescr descr = .ok b ∧ b.Sound := by
  have hsound : TMedianTracker.Sound ({} : TMedianTracker 100) :=
    TMedianTracker.sound_init (by norm_num)
  obtain ⟨w, hcalc, hpos⟩ : ∃ w, calcWeight descr {} ⟨1, 85 / 100⟩ = .ok w ∧ 0 < w :=
    calcWeight_pos hw hsound (by norm_num)
  exact ⟨_, bind_eq_ok.2 ⟨w, hcalc, rfl⟩, hw, hsound, by norm_num, rfl, hpos⟩

/-- A new weight for trackers that are sound. -/
theorem exists_reCalcWeight (hw : 0 < b.backEnd.weight) (ht : b.answerTime.Sound)
    (hf : 0 ≤ b.failures.s) (hcoeff : b.failures.coeff = 85 / 100) :
    ∃ b', b.reCalcWeight = .ok b' ∧ b'.Sound := by
  obtain ⟨w, hcalc, hpos⟩ := calcWeight_pos hw ht hf
  exact ⟨_, bind_eq_ok.2 ⟨w, hcalc, rfl⟩, hw, ht, hf, hcoeff, hpos⟩

theorem Sound.onCompleteRequest (h : b.Sound) (duration : UInt64) :
    ∃ b', b.onCompleteRequest duration = .ok b' ∧ b'.Sound := by
  have hlt : (duration.toNat : ℚ) < 2 ^ 64 := by exact_mod_cast duration.toNat_lt
  obtain ⟨t, hadd, ht⟩ := h.answerTime.add (by norm_num) (Nat.cast_nonneg duration.toNat) hlt
  obtain ⟨hf, hcoeff⟩ := add_nonneg h.coeff (by norm_num) (by norm_num) h.failures (le_refl 0)
  obtain ⟨b', hb', hsound⟩ := exists_reCalcWeight
    (b := { b with answerTime := t, failures := b.failures.add 0 }) h.backEnd ht hf hcoeff
  exact ⟨b', bind_eq_ok.2 ⟨t, hadd, hb'⟩, hsound⟩

theorem Sound.onFailRequest (h : b.Sound) : ∃ b', b.onFailRequest = .ok b' ∧ b'.Sound := by
  obtain ⟨hf, hcoeff⟩ :=
    add_nonneg h.coeff (by norm_num) (by norm_num) h.failures (by norm_num : (0 : ℚ) ≤ 10)
  exact exists_reCalcWeight (b := { b with failures := b.failures.add 10 }) h.backEnd h.answerTime
    hf hcoeff

end TBackEnd

namespace TBackEnds

variable {n : Nat} {p : TBackEnds}

/-- `n` backends, all of them sound. -/
structure Sound (n : Nat) (p : TBackEnds) : Prop where
  length : p.length = n
  backEnds : ∀ b ∈ p, b.Sound

theorem exists_ofConfig {descrs : List TBackEndDescriptor} (hpos : ∀ d ∈ descrs, 0 < d.weight) :
    ∃ p, ofConfig descrs = .ok p ∧ Sound descrs.length p := by
  induction descrs with
  | nil => exact ⟨[], rfl, rfl, List.forall_mem_nil _⟩
  | cons d descrs ih =>
    obtain ⟨hd, hdescrs⟩ := List.forall_mem_cons.1 hpos
    obtain ⟨b, hb, hsound⟩ := TBackEnd.exists_ofDescr hd
    obtain ⟨p, hp, hlen, hall⟩ := ih hdescrs
    refine ⟨b :: p, ?_, congrArg (· + 1) hlen, List.forall_mem_cons.2 ⟨hsound, hall⟩⟩
    rw [ofConfig] at hp
    rw [ofConfig, List.mapM_cons, hb, hp]
    rfl

theorem Sound.doNext (h : Sound n p) (hn : 0 < n) {random : ℚ} (hr : Drawn random) :
    ∃ i < n, doNext random p = .ok i := by
  have hne : p ≠ [] := List.length_pos_iff.1 (h.length ▸ hn)
  have hsum := sum_map_pos hne fun b hb => (h.backEnds b hb).weight
  have hlt : random * (p.map (·.weight)).sum < (p.map (·.weight)).sum :=
    mul_lt_of_lt_one_left hsum hr.2
  obtain ⟨i, hi, hwalk⟩ := exists_walk_gt (by simpa using hne) hlt
  rw [List.length_map, h.length] at hi
  refine ⟨i, hi, ?_⟩
  simp only [TBackEnds.doNext, hwalk]

theorem Sound.modify (h : Sound n p) {i : Nat} (hi : i < n) {f : TBackEnd → Except TFault TBackEnd}
    (hf : ∀ b, b.Sound → ∃ b', f b = .ok b' ∧ b'.Sound) :
    ∃ p', modifyBackEnd i f p = .ok p' ∧ Sound n p' := by
  have hi' : i < p.length := h.length ▸ hi
  obtain ⟨b, hb, hsound⟩ := hf _ (h.backEnds _ (List.getElem_mem hi'))
  refine ⟨_, modifyBackEnd_eq hi' hb, by rw [List.length_set, h.length], fun c hc => ?_⟩
  rcases List.mem_or_eq_of_mem_set hc with hc | rfl
  · exact h.backEnds c hc
  · exact hsound

theorem Sound.step (h : Sound n p) (hn : 0 < n) (e : TDrawEvent) (he : e.Within n) :
    ∃ p', step p e = .ok p' ∧ Sound n p' := by
  cases e with
  | doNext random =>
    obtain ⟨i, -, hi⟩ := h.doNext hn he
    exact ⟨p, map_eq_ok.2 ⟨i, hi, rfl⟩, h⟩
  | onCompleteRequest i duration => exact h.modify he fun b hb => hb.onCompleteRequest duration
  | onFailRequest i duration => exact h.modify he fun b hb => hb.onFailRequest

end TBackEnds

end Fair

/-! ### `robust.cpp` -/

namespace Robust

structure TBackEnd.Sound (b : TBackEnd) : Prop where
  weight : 0 < b.weight
  initialWeight : 0 < b.initialWeight

namespace TBackEnd

variable {b : TBackEnd} {x : ℚ}

theorem smooth_nonneg (b : TBackEnd) (hx : 0 ≤ x) : 0 ≤ b.smooth x := by
  unfold smooth
  dsimp only
  split
  · exact hx
  · positivity

/-- A backend is drawn back to its initial weight by less than a hundredth of its weight. -/
theorem Sound.back_pos (h : b.Sound) :
    0 < b.weight + b.initialWeight * (1 / 10000) ∧
      0 < 1 + 1 / 100 * (b.initialWeight - b.weight) /
        (b.weight + b.initialWeight * (1 / 10000)) := by
  have hW := h.weight
  have hI := h.initialWeight
  have hden : 0 < b.weight + b.initialWeight * (1 / 10000) := by positivity
  refine ⟨hden, ?_⟩
  have hlow : -1 < 1 / 100 * (b.initialWeight - b.weight) /
      (b.weight + b.initialWeight * (1 / 10000)) := by
    rw [lt_div_iff₀ hden]
    linarith
  linarith

theorem Sound.adjustByError (h : b.Sound) (val : Bool) {sr : TMiddleValueTracker} (hsr : 0 ≤ sr.s)
    (hcoeff : sr.coeff = 95 / 100) :
    ∃ sr' b', b.adjustByError val sr = .ok (sr', b') ∧ b'.Sound ∧ 0 ≤ sr'.s ∧
      sr'.coeff = 95 / 100 := by
  have hval : (0 : ℚ) ≤ if val then 1 else 0 := by split <;> norm_num
  obtain ⟨hsr', hcoeff'⟩ := add_nonneg hcoeff (by norm_num) (by norm_num) hsr hval
  have hprev : 0 < 1 / 100 + b.smooth sr.m :=
    add_pos_of_pos_of_nonneg (by norm_num) (b.smooth_nonneg hsr)
  have hnext : 0 < 1 / 100 + b.smooth (sr.add (if val then 1 else 0)).m :=
    add_pos_of_pos_of_nonneg (by norm_num) (b.smooth_nonneg hsr')
  have hchange := div_pos hnext hprev
  cases val with
  | true =>
    obtain ⟨hden, hback⟩ := h.back_pos
    refine ⟨_, _, bind_eq_ok.2 ⟨_, div_of_ne hprev.ne', bind_eq_ok.2
      ⟨_, div_of_ne hden.ne', rfl⟩⟩, ⟨?_, h.initialWeight⟩, hsr', hcoeff'⟩
    exact mul_pos h.weight (mul_pos hchange hback)
  | false =>
    refine ⟨_, _, bind_eq_ok.2 ⟨_, div_of_ne hprev.ne', rfl⟩, ⟨?_, h.initialWeight⟩, hsr', hcoeff'⟩
    exact mul_pos h.weight hchange

theorem Sound.step (h : b.Sound) : b.step.Sound := by
  have hW := h.weight
  have hI := h.initialWeight
  refine ⟨?_, hI⟩
  show 0 < 9999 / 10000 * b.weight + (1 - 9999 / 10000) * b.initialWeight
  linarith

end TBackEnd

namespace TBackEnds

variable {n : Nat} {p : TBackEnds}

/-- `n` backends, all of them sound, and the trackers that they share. -/
structure Sound (n : Nat) (p : TBackEnds) : Prop where
  length : p.list.length = n
  list : ∀ b ∈ p.list, b.Sound
  tr : p.tr.Sound
  sr : 0 ≤ p.sr.s
  coeff : p.sr.coeff = 95 / 100

theorem sound_ofConfig {descrs : List TBackEndDescriptor} (hpos : ∀ d ∈ descrs, 0 < d.weight) :
    Sound descrs.length (ofConfig descrs) where
  length := List.length_map _
  list := List.forall_mem_map.2 fun d hd => ⟨hpos d hd, hpos d hd⟩
  tr := TMedianTracker.sound_init (by norm_num)
  sr := by norm_num [ofConfig]
  coeff := rfl

theorem backEnd_eq {i : Nat} (hi : i < p.list.length) : p.backEnd i = .ok p.list[i] := by
  rw [backEnd, List.getElem?_eq_getElem hi]

/-- One of the backends is replaced, and the trackers have moved on. -/
theorem Sound.set (h : Sound n p) (i : Nat) {b : TBackEnd} (hb : b.Sound) {tr : TMedianTracker 300}
    (htr : tr.Sound) {sr : TMiddleValueTracker} (hsr : 0 ≤ sr.s) (hcoeff : sr.coeff = 95 / 100) :
    Sound n { list := p.list.set i b, tr, sr } := by
  refine ⟨by rw [List.length_set, h.length], fun c hc => ?_, htr, hsr, hcoeff⟩
  rcases List.mem_or_eq_of_mem_set hc with hc | rfl
  · exact h.list c hc
  · exact hb

theorem Sound.onCompleteRequest (h : Sound n p) {i : Nat} (hi : i < n) (duration : UInt64) :
    ∃ p', p.onCompleteRequest i duration = .ok p' ∧ Sound n p' := by
  have hi' : i < p.list.length := h.length ▸ hi
  have hb := h.list _ (List.getElem_mem hi')
  have hlt : (duration.toNat : ℚ) < 2 ^ 64 := by exact_mod_cast duration.toNat_lt
  obtain ⟨before, hbefore⟩ := h.tr.get (by norm_num) (by norm_num : 90 ≤ 100)
  obtain ⟨tr, hadd, htr⟩ := h.tr.add (by norm_num) (Nat.cast_nonneg duration.toNat) hlt
  obtain ⟨after, hafter⟩ := htr.get (by norm_num) (by norm_num : 90 ≤ 100)
  have hprev : 0 < 1 + p.list[i].smooth before := by
    linarith [p.list[i].smooth_nonneg (Nat.cast_nonneg before)]
  have hnext : 0 < 1 + p.list[i].smooth after := by
    linarith [p.list[i].smooth_nonneg (Nat.cast_nonneg after)]
  obtain ⟨sr, b, hadjust, hsound, hsr, hcoeff⟩ := TBackEnd.Sound.adjustByError
    (b := { p.list[i] with
      succ := p.list[i].succ + 1
      weight := p.list[i].weight * ((1 + p.list[i].smooth before) / (1 + p.list[i].smooth after)) })
    ⟨mul_pos hb.weight (div_pos hprev hnext), hb.initialWeight⟩ true h.sr h.coeff
  refine ⟨_, ?_, h.set i hsound htr hsr hcoeff⟩
  exact bind_eq_ok.2 ⟨_, backEnd_eq hi', bind_eq_ok.2 ⟨_, hbefore, bind_eq_ok.2 ⟨_, hadd,
    bind_eq_ok.2 ⟨_, hafter, bind_eq_ok.2 ⟨_, div_of_ne hnext.ne', bind_eq_ok.2
      ⟨_, hadjust, rfl⟩⟩⟩⟩⟩⟩

theorem Sound.onFailRequest (h : Sound n p) {i : Nat} (hi : i < n) :
    ∃ p', p.onFailRequest i = .ok p' ∧ Sound n p' := by
  have hi' : i < p.list.length := h.length ▸ hi
  have hb := h.list _ (List.getElem_mem hi')
  obtain ⟨sr, b, hadjust, hsound, hsr, hcoeff⟩ := TBackEnd.Sound.adjustByError
    (b := { p.list[i] with fail := p.list[i].fail + 1 }) ⟨hb.weight, hb.initialWeight⟩ false h.sr
      h.coeff
  refine ⟨_, ?_, h.set i hsound h.tr hsr hcoeff⟩
  exact bind_eq_ok.2 ⟨_, backEnd_eq hi', bind_eq_ok.2 ⟨_, hadjust, rfl⟩⟩

/-- `DoNext` makes the weights add up to the number of the backends before it draws below it. -/
theorem Sound.doNext (h : Sound n p) (hn : 0 < n) {random : ℚ} (hr : Drawn random) :
    ∃ i < n, ∃ p', p.doNext random = .ok (i, p') ∧ Sound n p' := by
  have hne : p.list.map (·.step) ≠ [] := by
    rw [ne_eq, List.map_eq_nil_iff, ← List.length_eq_zero_iff, h.length]
    exact hn.ne'
  have hsteps : ∀ b ∈ p.list.map (·.step), b.Sound :=
    List.forall_mem_map.2 fun b hb => (h.list b hb).step
  have hsum := sum_map_pos hne fun b hb => (hsteps b hb).weight
  have hsize : (0 : ℚ) < p.list.length := Nat.cast_pos.2 (h.length ▸ hn)
  obtain ⟨c, hc⟩ : ∃ c, c = (p.list.length : ℚ) / ((p.list.map (·.step)).map (·.weight)).sum :=
    ⟨_, rfl⟩
  have hcpos : 0 < c := hc ▸ div_pos hsize hsum
  have hnew : (((p.list.map (·.step)).map (·.normalize c)).map (·.weight)).sum = p.list.length := by
    rw [List.map_map]
    show ((p.list.map (·.step)).map fun b => b.weight * c).sum = _
    rw [List.sum_map_mul_right, hc, mul_div_cancel₀ _ hsum.ne']
  have hlt : random * p.list.length <
      (((p.list.map (·.step)).map (·.normalize c)).map (·.weight)).sum := by
    rw [hnew]
    exact mul_lt_of_lt_one_left hsize hr.2
  obtain ⟨i, hi, hwalk⟩ := exists_walk_gt (by simpa using hne) hlt
  simp only [List.length_map, h.length] at hi
  refine ⟨i, hi, { p with list := (p.list.map (·.step)).map (·.normalize c) }, ?_, ?_⟩
  · rw [TBackEnds.doNext]
    simp only [div_of_ne hsum.ne', ← hc, ok_bind, hwalk]
  · refine ⟨by simp only [List.length_map, h.length], List.forall_mem_map.2 fun b hb => ?_, h.tr,
      h.sr, h.coeff⟩
    exact ⟨mul_pos (hsteps b hb).weight hcpos, (hsteps b hb).initialWeight⟩

theorem Sound.step (h : Sound n p) (hn : 0 < n) (e : TDrawEvent) (he : e.Within n) :
    ∃ p', p.step e = .ok p' ∧ Sound n p' := by
  cases e with
  | doNext random =>
    obtain ⟨i, -, p', hp', hsound⟩ := h.doNext hn he
    exact ⟨p', map_eq_ok.2 ⟨_, hp', rfl⟩, hsound⟩
  | onCompleteRequest i duration => exact h.onCompleteRequest he duration
  | onFailRequest i duration => exact h.onFailRequest he

end TBackEnds

end Robust

/-- For all positive weights and every run of events, under the fair and under the robust policy: no
step of the run divides by 0, aborts or fails in another way, all weights are positive in the end,
and then `DoNext` returns a backend for every number that it can draw. -/
theorem fair_robust_safe (descrs : List TBackEndDescriptor) (hne : descrs ≠ [])
    (hpos : ∀ d ∈ descrs, 0 < d.weight) (es : List TDrawEvent)
    (hes : ∀ e ∈ es, e.Within descrs.length) :
    (∃ p₀ p, Fair.TBackEnds.ofConfig descrs = .ok p₀ ∧ p₀.run es = .ok p ∧ (∀ b ∈ p, 0 < b.weight) ∧
      ∀ random, Drawn random → ∃ i < descrs.length, p.doNext random = .ok i) ∧
    (∃ p, (Robust.TBackEnds.ofConfig descrs).run es = .ok p ∧ (∀ b ∈ p.list, 0 < b.weight) ∧
      ∀ random, Drawn random → ∃ i < descrs.length, ∃ p', p.doNext random = .ok (i, p')) := by
  have hn : 0 < descrs.length := List.length_pos_iff.2 hne
  constructor
  · obtain ⟨p₀, hp₀, hsound₀⟩ := Fair.TBackEnds.exists_ofConfig hpos
    obtain ⟨p, hrun, hsound⟩ :=
      TDrawEvent.run_invariant (fun p e hp he => hp.step hn e he) hsound₀ hes
    exact ⟨p₀, p, hp₀, hrun, fun b hb => (hsound.backEnds b hb).weight,
      fun random hr => hsound.doNext hn hr⟩
  · obtain ⟨p, hrun, hsound⟩ := TDrawEvent.run_invariant (fun p e hp he => hp.step hn e he)
      (Robust.TBackEnds.sound_ofConfig hpos) hes
    refine ⟨p, hrun, fun b hb => (hsound.list b hb).weight, fun random hr => ?_⟩
    obtain ⟨i, hi, p', hp', -⟩ := hsound.doNext hn hr
    exact ⟨i, hi, p', hp'⟩

/-- Two backends, a draw and requests of both kinds. -/
theorem fair_robust_safe_two :
    (∃ p₀ p, Fair.TBackEnds.ofConfig [{}, { weight := 1 / 3 }] = .ok p₀ ∧
      p₀.run [.doNext (1 / 2), .onCompleteRequest 1 250000, .onFailRequest 0 7] = .ok p ∧
      ∀ random, Drawn random → ∃ i < 2, p.doNext random = .ok i) ∧
    (∃ p, (Robust.TBackEnds.ofConfig [{}, { weight := 1 / 3 }]).run
        [.doNext (1 / 2), .onCompleteRequest 1 250000, .onFailRequest 0 7] = .ok p ∧
      ∀ random, Drawn random → ∃ i < 2, ∃ p', p.doNext random = .ok (i, p')) := by
  obtain ⟨⟨p₀, p, hp₀, hrun, -, hnext⟩, p', hrun', -, hnext'⟩ :=
    fair_robust_safe [{}, { weight := 1 / 3 }]
    (List.cons_ne_nil _ _) (by simp) [.doNext (1 / 2), .onCompleteRequest 1 250000,
      .onFailRequest 0 7]
    (by norm_num [TDrawEvent.Within, Drawn])
  exact ⟨⟨p₀, p, hp₀, hrun, hnext⟩, p', hrun', hnext'⟩

end Balancer
