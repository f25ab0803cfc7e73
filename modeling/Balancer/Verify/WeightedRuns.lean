import Balancer.Verify.Weighted

/-!
# No backend of the weighted policy is starved

The callbacks of the requests change the weights between the calls of `DoNext`, but `Normalize`
keeps them within bounds and nothing but `DoNext` changes the emergencies. So the emergencies stay
within bounds too, and a backend that earns at least the lower bound in every call is picked before
long (`weighted2_not_starved`).
-/

namespace Balancer

open Runs Fallible

namespace Weighted2

/-- Whether the event is a call of `DoNext`. -/
def TEvent.isDoNext : TEvent → Bool
  | .doNext => true
  | _ => false

/-- `Normalize` leaves a backend of this configuration a weight between `lo` and `hi`. -/
def TCorrectionParams.Fits (params : TCorrectionParams) (lo hi : ℚ) (d : TBackEndDescriptor) :
    Prop :=
  lo ≤ params.minWeight * d.weight ∧ lo ≤ params.maxWeight * d.weight ∧
    params.maxWeight * d.weight ≤ hi

namespace TBackEnds

variable {p p' : TBackEnds} {i : Nat}

theorem map_kept_set {l : List TBackEnd} {b b' : TBackEnd} (hb : l[i]? = some b)
    (h : b'.kept = b.kept) : (l.set i b').map (·.kept) = l.map (·.kept) := by
  obtain ⟨hi, rfl⟩ := List.getElem?_eq_some_iff.1 hb
  have hi' : i < (l.map (·.kept)).length := by rwa [List.length_map]
  rw [List.map_set, h, show l[i].kept = (l.map (·.kept))[i] from (List.getElem_map _).symm,
    List.set_getElem_self]

/-- A callback ends with `Normalize`, and changes nothing else that matters to `DoNext`. -/
theorem onRequest_normalized {now : TInstant} {quality : ℚ} {cur : TBackEnd → Except TFault ℚ}
    {new : TBackEnd → ℚ → ℚ} (h : p.onRequest now i quality cur new = .ok p') :
    p'.params = p.params ∧ p'.backEnds.map (·.kept) = p.backEnds.map (·.kept) ∧ ∀ b ∈ p'.backEnds,
      ∃ x,
      b.weight = min (p.params.maxWeight * b.backEnd.weight)
        (max (p.params.minWeight * b.backEnd.weight) x) := by
  obtain ⟨b, hb, h⟩ := bind_eq_ok.1 h
  obtain ⟨qualityData, -, h⟩ := bind_eq_ok.1 h
  obtain ⟨avg, havg, h⟩ := bind_eq_ok.1 h
  obtain ⟨b', hb', h⟩ := bind_eq_ok.1 h
  obtain ⟨w, -, h⟩ := bind_eq_ok.1 h
  obtain ⟨r, hr, h⟩ := bind_eq_ok.1 h
  obtain ⟨c, -, h⟩ := bind_eq_ok.1 h
  cases h
  obtain ⟨hparams, hkept⟩ := kept_getAvgQuality havg
  refine ⟨hparams, ?_, fun b hb => ?_⟩
  · have hset : (avg.2.backEnds.set i { r.2 with weight := new r.2 r.1 }).map (·.kept) =
        avg.2.backEnds.map (·.kept) := map_kept_set (backEnd_eq_ok.1 hb') (TBackEnd.kept_correct hr)
    rw [List.map_map]
    exact hset.trans (hkept.trans (map_kept_set (backEnd_eq_ok.1 hb) rfl))
  · obtain ⟨b₀, -, rfl⟩ := List.mem_map.1 hb
    exact ⟨b₀.weight * c, by rw [← hparams]; rfl⟩

/-- The weights and the emergencies are within bounds. -/
structure Balanced (params : TCorrectionParams) (descrs : List TBackEndDescriptor) (lo hi : ℚ)
    (p : TBackEnds) : Prop where
  pos : 0 < lo
  fits : ∀ d ∈ descrs, params.Fits lo hi d
  params_eq : p.params = params
  config : p.backEnds.map (·.backEnd) = descrs
  weights : ∀ b ∈ p.backEnds, lo ≤ b.weight ∧ b.weight ≤ hi
  sum : ∑ j ∈ Finset.range p.backEnds.length, p.emergency j = 0
  low : ∀ j ∈ Finset.range p.backEnds.length, -(p.backEnds.length * hi) < p.emergency j

section
variable {params : TCorrectionParams} {descrs : List TBackEndDescriptor} {lo hi : ℚ}

theorem Balanced.onRequest (h : p.Balanced params descrs lo hi) {now : TInstant} {quality : ℚ}
    {cur : TBackEnd → Except TFault ℚ} {new : TBackEnd → ℚ → ℚ}
    (hp' : p.onRequest now i quality cur new = .ok p') :
    p'.Balanced params descrs lo hi ∧ p'.emergency = p.emergency := by
  obtain ⟨hparams, hkept, hweights⟩ := onRequest_normalized hp'
  have hconfig : p'.backEnds.map (·.backEnd) = descrs := by
    have := congrArg (List.map Prod.fst) hkept
    rw [List.map_map, List.map_map] at this
    exact this.trans h.config
  have hemergency : p'.emergency = p.emergency := by
    have := congrArg (List.map Prod.snd) hkept
    rw [List.map_map, List.map_map] at this
    funext j
    exact congrArg (List.getD · j 0) this
  have hlen : p'.backEnds.length = p.backEnds.length := by
    have := congrArg List.length hkept
    rwa [List.length_map, List.length_map] at this
  refine ⟨⟨h.pos, h.fits, hparams.trans h.params_eq, hconfig, fun b hb => ?_, ?_, ?_⟩, hemergency⟩
  · obtain ⟨x, hx⟩ := hweights b hb
    obtain ⟨hmin, hmax, hhi⟩ := h.fits b.backEnd (hconfig ▸ List.mem_map_of_mem hb)
    rw [hx, h.params_eq]
    exact ⟨le_min hmax (le_max_of_le_left hmin), min_le_of_left_le hhi⟩
  · rw [hemergency, hlen]
    exact h.sum
  · rw [hemergency, hlen]
    exact h.low

/-- In a call of `DoNext` every backend that is not picked earns its weight. -/
theorem Balanced.doNext (h : p.Balanced params descrs lo hi) {j : Nat}
    (hp' : p.doNext = some (j, p')) :
    p'.Balanced params descrs lo hi ∧ ∀ i < p.backEnds.length, i ≠ j →
      p.emergency i + lo ≤ p'.emergency i := by
  have hne : p.backEnds ≠ [] := by
    intro hnil
    simp [TBackEnds.doNext, hnil] at hp'
  obtain ⟨j', q, hq, -, hturn⟩ := doNext_turn hne fun b hb => h.pos.trans_le (h.weights b hb).1
  cases hq.symm.trans hp'
  obtain ⟨total, rfl⟩ : ∃ total, p' = p.paid j total := by
    obtain ⟨first, -, heq⟩ := Option.map_eq_some_iff.1 hp'
    cases heq
    exact ⟨_, rfl⟩
  have hweight : ∀ k ∈ Finset.range p.backEnds.length, lo ≤ p.weight k ∧ p.weight k ≤ hi := by
    intro k hk
    rw [weight_eq (Finset.mem_range.1 hk)]
    exact h.weights _ (List.getElem_mem _)
  have hsum : ∑ k ∈ Finset.range p.backEnds.length, p.weight k ≤ p.backEnds.length * hi := by
    have := Finset.sum_le_card_nsmul _ p.weight hi fun k hk => (hweight k hk).2
    rwa [Finset.card_range, nsmul_eq_mul] at this
  refine ⟨⟨h.pos, h.fits, h.params_eq, (map_paid (fun _ _ => rfl) ..).trans h.config,
    fun b hb => ?_, ?_, ?_⟩, ?_⟩
  · have hmap := map_paid (p := p) (f := (·.weight)) (fun _ _ => rfl) j total
    obtain ⟨b₀, hb₀, heq⟩ := List.mem_map.1 (hmap ▸ List.mem_map_of_mem hb)
    exact heq ▸ h.weights b₀ hb₀
  · rw [length_paid, hturn.sum_eq]
    exact h.sum
  · rw [length_paid]
    exact hturn.neg_lt_of_le (fun k hk => h.pos.trans_le (hweight k hk).1) h.sum hsum h.low
  · intro i hin hij
    have hk := Finset.mem_range.2 hin
    rw [hturn.others i hk hij]
    linarith [(hweight i hk).1]

/-- One event, for a backend `i` that `DoNext` does not return. -/
theorem Balanced.step (h : p.Balanced params descrs lo hi) {e : TEvent}
    (hs : system.step p e = some p') :
    p'.Balanced params descrs lo hi ∧
      (i < descrs.length → (e = .doNext → p.doNext.map Prod.fst ≠ some i) →
      p.emergency i + (if e.isDoNext then lo else 0) ≤ p'.emergency i) := by
  cases e with
  | doNext =>
    obtain ⟨⟨j, q⟩, hq, rfl⟩ := Option.map_eq_some_iff.1 hs
    obtain ⟨h', hearned⟩ := h.doNext hq
    refine ⟨h', fun hi hnot => hearned i (by rwa [← List.length_map, h.config]) ?_⟩
    rintro rfl
    exact hnot rfl (by rw [hq]; rfl)
  | onCompleteRequest now j answerTime | onFailRequest now j answerTime =>
    obtain ⟨h', hemergency⟩ := h.onRequest (toOption_eq_some.1 hs)
    exact ⟨h', fun _ _ => by rw [hemergency]; exact (add_zero _).le⟩

theorem Balanced.run (h : p.Balanced params descrs lo hi) {es : List TEvent}
    (hrun : system.run p es = some p') (hin : i < descrs.length)
    (hnot : system.EachStep (fun p e => e = .doNext → p.doNext.map Prod.fst ≠ some i) p es) :
    p'.Balanced params descrs lo hi ∧ p.emergency i + es.countP (·.isDoNext) * lo ≤
      p'.emergency i := by
  induction es generalizing p with
  | nil =>
    cases hrun
    simpa using h
  | cons e es ih =>
    obtain ⟨q, hs, -⟩ := System.run_cons_isSome (Option.isSome_of_mem hrun)
    rw [System.run_cons hs] at hrun
    obtain ⟨hnow, hnot⟩ := (System.eachStep_cons hs).1 hnot
    obtain ⟨hq, hearned⟩ := h.step hs
    obtain ⟨h', hle⟩ := ih hq hrun hnot
    refine ⟨h', le_trans ?_ hle⟩
    have := hearned hin hnow
    rw [List.countP_cons, Nat.cast_add, add_mul, Nat.cast_ite, ite_mul, Nat.cast_one, Nat.cast_zero,
      one_mul, zero_mul]
    linarith

end

theorem ofConfig_fresh (items : List TItem) : ∀ b ∈ (ofConfig items).backEnds, b.weight = 1 ∧
    b.emergency = 0 := by
  refine List.foldlRecOn (motive := fun p => ∀ b ∈ p.backEnds,
    b.weight = 1 ∧ b.emergency = 0) items parse ?_
    fun p h item _ => ?_
  · intro b hb
    cases hb
  · cases item with
    | correctionParams | quality => exact h
    | backEnd => exact List.forall_mem_append.2 ⟨h, List.forall_mem_singleton.2 ⟨rfl, rfl⟩⟩

theorem balanced_ofConfig (items : List TItem) {lo hi : ℚ} (hlo : 0 < lo) (hone : lo ≤ 1 ∧ 1 ≤ hi)
    (hfits : ∀ b ∈ (ofConfig items).backEnds, (ofConfig items).params.Fits lo hi b.backEnd) :
    (ofConfig items).Balanced (ofConfig items).params ((ofConfig items).backEnds.map (·.backEnd)) lo
      hi := by
  have hfresh := ofConfig_fresh items
  have hzero : ∀ j ∈ Finset.range (ofConfig items).backEnds.length, (ofConfig items).emergency j =
      0 := by
    intro j hj
    rw [emergency_eq (Finset.mem_range.1 hj)]
    exact (hfresh _ (List.getElem_mem _)).2
  refine ⟨hlo, List.forall_mem_map.2 hfits, rfl, rfl, fun b hb => by rwa [(hfresh b hb).1],
    Finset.sum_eq_zero hzero, fun j hj => ?_⟩
  rw [hzero j hj, neg_lt_zero]
  exact mul_pos (Nat.cast_pos.2 (Nat.zero_lt_of_lt (Finset.mem_range.1 hj)))
    (zero_lt_one.trans_le hone.2)

end TBackEnds

/-- However the callbacks interleave with the calls of `DoNext`, a backend waits for its turn no
longer than the bounds of the weights say. -/
theorem weighted2_not_starved (items : List TItem) (lo hi : ℚ) (hlo : 0 < lo)
    (hone : lo ≤ 1 ∧ 1 ≤ hi) (hfits : ∀ b ∈ (TBackEnds.ofConfig items).backEnds,
      (TBackEnds.ofConfig items).params.Fits lo hi b.backEnd) (pre es : List TEvent) (p : TBackEnds)
    (hpre : system.run (.ofConfig items) pre = some p) (hrun : (system.run p es).isSome) (i : Nat)
    (hin : i < p.backEnds.length)
    (hnot : system.EachStep (fun p e => e = .doNext → p.doNext.map Prod.fst ≠ some i) p es) :
    es.countP (·.isDoNext) * lo < p.backEnds.length * (p.backEnds.length * hi) := by
  have hp := (System.always_of_invariant (Option.isSome_of_mem hpre)
    (fun _ _ _ h hs => (h.step (i := i) hs).1)
      (TBackEnds.balanced_ofConfig items hlo hone hfits)).last hpre
  have hlen := congrArg List.length hp.config
  rw [List.length_map] at hlen
  obtain ⟨p', hp'⟩ := Option.isSome_iff_exists.1 hrun
  obtain ⟨h', hearned⟩ := hp.run hp' (hlen ▸ hin) hnot
  have hlen' := congrArg List.length h'.config
  rw [List.length_map, ← hlen] at hlen'
  have hlow := hp.low i (Finset.mem_range.2 hin)
  have hle := HighestCredit.le_of_neg_lt h'.sum h'.low (Finset.mem_range.2 (hlen' ▸ hin))
  rw [Finset.card_range, hlen', Nat.cast_sub (Nat.one_le_of_lt hin), Nat.cast_one] at hle
  linarith

/-- After the failure of a request of the first of two backends, the second one takes its turn. -/
theorem weighted2_not_starved_two :
    ∃ p, system.run (TBackEnds.pair 1) [.doNext, .onFailRequest 0 0 0] = some p ∧
    ([TEvent.doNext].countP (·.isDoNext) : ℚ) * (1 / 20) <
      p.backEnds.length * (p.backEnds.length * 10) := by
  have hrun : (system.run (TBackEnds.pair 1) [.doNext, .onFailRequest 0 0 0]).bind
      (fun p => p.doNext.map fun r => (p.backEnds.length, r.1)) = some (2, 1) := by decide +kernel
  obtain ⟨p, hp, hnext⟩ := Option.bind_eq_some_iff.1 hrun
  obtain ⟨⟨j, q⟩, hq, heq⟩ := Option.map_eq_some_iff.1 hnext
  obtain ⟨hlen, rfl⟩ := Prod.mk.inj heq
  have hs : system.step p .doNext = some q := congrArg (Option.map Prod.snd) hq
  refine ⟨p, hp, weighted2_not_starved _ (1 / 20) 10 (by norm_num) (by norm_num) ?_ _ _ p hp ?_ 0
    (by omega) ?_⟩
  · simp only [TBackEnds.ofConfig, TBackEnds.parse, TBackEnds.add, TCorrectionParams.Fits,
      List.foldl, List.nil_append, List.cons_append, List.forall_mem_cons]
    norm_num
  · rw [System.run_cons hs]
    rfl
  · refine (System.eachStep_cons hs).2 ⟨fun _ => ?_, System.eachStep_nil⟩
    rw [hq]
    simp

end Weighted2

end Balancer
