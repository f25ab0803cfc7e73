import Balancer.Modules.Balancer.Average
import Balancer.Theory.Ring
import Balancer.Theory.WindowMean

/-!
# The trackers over whole histories

The tracker of a limited time holds a suffix of the last `N` values, and what it has dropped from
them was too old (`TTimeLimitedAvgTracker.Holds`). The median tracker holds the last `N` values in
some order.
-/

namespace Balancer

open WindowMean Ring

/-! ### Values of a limited time -/

namespace TTimeLimitedAvgTracker

variable {N : Nat} {s s' : TTimeLimitedAvgTracker N} {added : List (ℚ × TInstant)}
  {now now' : TInstant}

/-- The values that are in the ring, with the times of them. -/
def window (s : TTimeLimitedAvgTracker N) : List (ℚ × TInstant) :=
  Ring.view N s.cur s.total fun i => (s.v i, s.t i)

/-- The value was added no longer than `ttl` before `now`. -/
def Fresh (ttl : UInt64) (now : TInstant) (p : ℚ × TInstant) : Prop :=
  now.toNat - p.2.toNat ≤ ttl.toNat

instance (ttl : UInt64) (now : TInstant) : DecidablePred (Fresh ttl now) := fun p =>
  inferInstanceAs (Decidable (now.toNat - p.2.toNat ≤ ttl.toNat))

/-- The tracker after `added`, of which none is later than `now`. -/
structure Holds (s : TTimeLimitedAvgTracker N) (added : List (ℚ × TInstant)) (now : TInstant) :
    Prop where
  cur : s.cur < N
  total : s.total ≤ N
  dropped : ∃ old, added.rtake N = old ++ s.window ∧ ∀ p ∈ old, ¬Fresh s.ttl now p
  sum : s.sum = (s.window.map Prod.fst).sum
  sorted : added.Pairwise fun p q => p.2 ≤ q.2
  le_now : ∀ p ∈ added, p.2 ≤ now

theorem length_window (s : TTimeLimitedAvgTracker N) : s.window.length = s.total := length_view

/-- What is too old stays so. -/
theorem not_fresh_of_le {ttl : UInt64} {p : ℚ × TInstant} (h : ¬Fresh ttl now p)
    (hle : now ≤ now') : ¬Fresh ttl now' p := by
  have hnat := UInt64.le_iff_toNat_le.1 hle
  rw [Fresh] at h ⊢
  omega

theorem Holds.mono (h : s.Holds added now) (hle : now ≤ now') : s.Holds added now' where
  cur := h.cur
  total := h.total
  dropped := by
    obtain ⟨old, hold, hfresh⟩ := h.dropped
    exact ⟨old, hold, fun p hp => not_fresh_of_le (hfresh p hp) hle⟩
  sum := h.sum
  sorted := h.sorted
  le_now p hp := UInt64.le_trans (h.le_now p hp) hle

theorem update_slots (s : TTimeLimitedAvgTracker N) (l : Nat) (v : ℚ) :
    (fun i => (Function.update s.v l v i, Function.update s.t l now i)) =
      Function.update (fun i => (s.v i, s.t i)) l (v, now) := by
  funext i
  by_cases hi : i = l
  · subst hi
    simp only [Function.update_self]
  · simp only [Function.update_of_ne hi]

theorem window_cons {total : Nat} (hcur : s.cur < N) (htotal : s.total = total + 1) :
    s.window = (s.v s.cur, s.t s.cur) :: Ring.view N ((s.cur + 1) % N) total fun i =>
      (s.v i, s.t i) := by
  rw [window, htotal]
  exact view_succ hcur

/-- `Add` in a full ring. -/
theorem add_of_full (hcur : s.cur < N) (hfull : s.total = N) (now : TInstant) (v : ℚ) :
    ∃ p rest s', s.window = p :: rest ∧ s.add now v = .ok s' ∧ s'.ttl = s.ttl ∧ s'.cur < N ∧
      s'.total ≤ N ∧
      s'.window = rest ++ [(v, now)] ∧ s'.sum = s.sum + v - p.1 := by
  have hN : 0 < N := Nat.zero_lt_of_lt hcur
  have hwindow := window_cons hcur (hfull.trans (Nat.sub_add_cancel hN).symm)
  have hall : Ring.view N s.cur N (fun i => (s.v i, s.t i)) = s.window := by rw [window, hfull]
  refine ⟨_, _, _, hwindow, (if_pos hfull).trans (if_pos hcur), rfl, Nat.mod_lt _ hN, hfull.le, ?_,
    rfl⟩
  have hnew := view_overwrite (a := fun i => (s.v i, s.t i)) hcur (v, now)
  rw [← update_slots, hall, hwindow, List.tail_cons] at hnew
  simp only [window, hfull]
  exact hnew

/-- `Add` where there is room. -/
theorem add_of_lt (hcur : s.cur < N) (hlt : s.total < N) (now : TInstant) (v : ℚ) :
    ∃ s', s.add now v = .ok s' ∧ s'.ttl = s.ttl ∧ s'.cur < N ∧ s'.total ≤ N ∧
      s'.window = s.window ++ [(v, now)] ∧ s'.sum = s.sum + v := by
  have hl : (s.cur + s.total) % N < N := Nat.mod_lt _ (Nat.zero_lt_of_lt hcur)
  refine ⟨_, (if_neg (Nat.ne_of_lt hlt)).trans (if_pos hl), rfl, hcur, hlt, ?_, rfl⟩
  have hnew := view_push s.cur (fun i => (s.v i, s.t i)) hlt (v, now)
  rw [← update_slots] at hnew
  exact hnew

theorem Holds.add (h : s.Holds added now) (v : ℚ) :
    ∃ s', s.add now v = .ok s' ∧ s'.ttl = s.ttl ∧ s'.Holds (added ++ [(v, now)]) now := by
  have hsorted : (added ++ [(v, now)]).Pairwise fun p q => p.2 ≤ q.2 := by
    refine List.pairwise_append.2 ⟨h.sorted, List.pairwise_singleton _ _, fun p hp q hq => ?_⟩
    rw [List.mem_singleton.1 hq]
    exact h.le_now p hp
  have hle_now : ∀ p ∈ added ++ [(v, now)], p.2 ≤ now :=
    List.forall_mem_append.2 ⟨h.le_now, List.forall_mem_singleton.2 (UInt64.le_refl now)⟩
  obtain ⟨old, hold, hfresh⟩ := h.dropped
  rcases Nat.lt_or_eq_of_le h.total with hlt | hfull
  · obtain ⟨s', hadd, httl, hcur, htotal, hwindow, hsum⟩ := add_of_lt h.cur hlt now v
    obtain ⟨old', hold', hsub⟩ := rtake_concat_of_lt hold (s.length_window.trans_lt hlt) (v, now)
    refine ⟨s', hadd, httl, hcur, htotal, ⟨old', ?_, fun p hp => ?_⟩, ?_, hsorted, hle_now⟩
    · rw [hwindow, hold']
    · rw [httl]
      exact hfresh p (hsub hp)
    · rw [hsum, hwindow, h.sum, List.map_append, List.sum_append, List.map_singleton,
        List.sum_singleton]
  · obtain ⟨p, rest, s', hcons, hadd, httl, hcur, htotal, hwindow, hsum⟩ :=
      add_of_full h.cur hfull now v
    -- a full ring holds all of the last `N` values
    have hlen := length_rtake added N
    rw [hold, List.length_append, s.length_window, hfull] at hlen
    obtain rfl : old = [] := List.eq_nil_of_length_eq_zero (by omega)
    rw [List.nil_append] at hold
    refine ⟨s', hadd, httl, hcur, htotal, ⟨[], ?_, List.forall_mem_nil _⟩, ?_, hsorted, hle_now⟩
    · rw [rtake_concat_of_le (Nat.zero_lt_of_lt h.cur) (by omega), hold, hcons, hwindow,
        List.tail_cons, List.nil_append]
    · rw [hsum, hwindow, h.sum, hcons, List.map_append, List.sum_append, List.map_singleton,
        List.sum_singleton, List.map_cons, List.sum_cons]
      ring

/-- The comparison of `Check()`, for a value that is not from the future. -/
theorem sub_gt_iff {p : ℚ × TInstant} (hle : p.2 ≤ now) :
    now - p.2 > s.ttl ↔ ¬Fresh s.ttl now p := by
  rw [Fresh, Nat.not_le, gt_iff_lt, UInt64.lt_iff_toNat_lt, UInt64.toNat_sub_of_le _ _ hle]

/-- `Check()` drops what is too old. -/
theorem Holds.checkLoop (h : s.Holds added now) {total : Nat} (htotal : s.total = total) :
    ∃ s', s.checkLoop now total = .ok s' ∧ s'.ttl = s.ttl ∧ s'.Holds added now ∧
      s'.window = (added.rtake N).filter (Fresh s.ttl now) := by
  induction total generalizing s with
  | zero =>
    obtain ⟨old, hold, hfresh⟩ := h.dropped
    have hnil : s.window = [] := List.eq_nil_of_length_eq_zero (s.length_window.trans htotal)
    refine ⟨s, rfl, rfl, h, ?_⟩
    rw [hnil, List.append_nil] at hold
    rw [hnil, hold, List.filter_eq_nil_iff.2 fun p hp => by simpa using hfresh p hp]
  | succ total ih =>
    obtain ⟨old, hold, hfresh⟩ := h.dropped
    have hcons := window_cons h.cur htotal
    have hsuffix : s.window <:+ added := List.IsSuffix.trans ⟨old, hold.symm⟩ (List.drop_suffix _ _)
    have hle : s.t s.cur ≤ now := by
      refine h.le_now (s.v s.cur, s.t s.cur) (hsuffix.subset ?_)
      rw [hcons]
      exact List.mem_cons_self
    rw [TTimeLimitedAvgTracker.checkLoop, if_pos h.cur]
    by_cases hgt : now - s.t s.cur > s.ttl
    · rw [if_pos hgt]
      have hold' := (sub_gt_iff (p := (s.v s.cur, s.t s.cur)) hle).1 hgt
      refine ih ⟨Nat.mod_lt _ (Nat.zero_lt_of_lt h.cur), ?_,
        ⟨old ++ [(s.v s.cur, s.t s.cur)], ?_, ?_⟩, ?_, h.sorted, h.le_now⟩ rfl
      · show total ≤ N
        have hN := h.total
        omega
      · rw [hold, hcons, List.append_assoc]
        rfl
      · exact List.forall_mem_append.2 ⟨hfresh, List.forall_mem_singleton.2 hold'⟩
      · show s.sum - s.v s.cur = _
        rw [h.sum, hcons, List.map_cons, List.sum_cons]
        exact add_sub_cancel_left ..
    · rw [if_neg hgt]
      refine ⟨s, rfl, rfl, h, ?_⟩
      -- what was added later is fresh as well
      have hwindow : ∀ p ∈ s.window, Fresh s.ttl now p := by
        have hfirst := not_not.1 (mt (sub_gt_iff (p := (s.v s.cur, s.t s.cur)) hle).2 hgt)
        have hsorted := h.sorted.sublist hsuffix.sublist
        rw [hcons, List.pairwise_cons] at hsorted
        rw [hcons]
        refine List.forall_mem_cons.2 ⟨hfirst, fun p hp => ?_⟩
        have hnat := UInt64.le_iff_toNat_le.1 (hsorted.1 p hp)
        rw [Fresh] at hfirst ⊢
        omega
      rw [hold, List.filter_append, List.filter_eq_nil_iff.2 fun p hp => by simpa using hfresh p hp,
        List.nil_append, List.filter_eq_self.2 fun p hp => by simpa using hwindow p hp]

theorem Holds.get (h : s.Holds added now) :
    ∃ r s', s.get now = .ok (r, s') ∧ s'.ttl = s.ttl ∧ s'.Holds added now ∧
      r = ((((added.rtake N).filter (Fresh s.ttl now)).map Prod.fst).sum,
        ((added.rtake N).filter (Fresh s.ttl now)).length) := by
  obtain ⟨s', hcheck, httl, h', hwindow⟩ := h.checkLoop rfl
  refine ⟨(s'.sum, s'.total), s', ?_, httl, h', ?_⟩
  · rw [TTimeLimitedAvgTracker.get, check, hcheck]
    rfl
  · rw [h'.sum, ← s'.length_window, hwindow]

/-! ### Whole runs -/

/-- What was added in a run. -/
def addedIn (calls : List TCall) : List (ℚ × TInstant) := calls.filterMap TCall.added

/-- One call, at a time that is not before the others. -/
theorem Holds.exec (h : s.Holds added now) (call : TCall) (hle : now ≤ call.time) :
    ∃ s', call.exec s = .ok s' ∧ s'.ttl = s.ttl ∧
      s'.Holds (added ++ call.added.toList) call.time := by
  cases call with
  | add now' v => exact (h.mono hle).add v
  | get now' =>
    have hnow : s.Holds added now' := h.mono hle
    obtain ⟨r, s', hget, httl, h', -⟩ := hnow.get
    refine ⟨s', ?_, httl, ?_⟩
    · rw [TCall.exec, hget]
      rfl
    · rwa [TCall.added, Option.toList_none, List.append_nil]

theorem Holds.run (h : s.Holds added now) {calls : List TCall} {t : TInstant}
    (hclock : (now :: calls.map TCall.time ++ [t]).Pairwise (· ≤ ·)) :
    ∃ s', s.run calls = .ok s' ∧ s'.ttl = s.ttl ∧ s'.Holds (added ++ addedIn calls) t := by
  induction calls generalizing s added now with
  | nil =>
    refine ⟨s, rfl, rfl, ?_⟩
    rw [addedIn, List.filterMap_nil, List.append_nil]
    exact h.mono ((List.pairwise_cons.1 hclock).1 t (List.mem_singleton_self t))
  | cons call calls ih =>
    obtain ⟨hnow, hrest⟩ := List.pairwise_cons.1 hclock
    obtain ⟨s₁, hexec, httl₁, h₁⟩ := h.exec call (hnow _ List.mem_cons_self)
    obtain ⟨s', hrun, httl, h'⟩ := ih h₁ hrest
    refine ⟨s', ?_, httl.trans httl₁, ?_⟩
    · rw [TTimeLimitedAvgTracker.run, List.foldlM_cons, hexec]
      exact hrun
    · have hadded : addedIn (call :: calls) = call.added.toList ++ addedIn calls := by
        rw [addedIn, List.filterMap_cons]
        cases call.added <;> rfl
      rwa [hadded, ← List.append_assoc]

theorem holds_init (hN : 0 < N) (v : Nat → ℚ) (t : Nat → TInstant) (ttl : UInt64) :
    Holds (N := N) { v, t, sum := 0, ttl } [] 0 :=
  ⟨hN, Nat.zero_le N, ⟨[], List.drop_nil, List.forall_mem_nil _⟩, rfl, List.Pairwise.nil,
    List.forall_mem_nil _⟩

/-- For every size, every time to live, every content that the arrays had before and every run of
calls with a clock that does not go back: `Get` returns the sum and the number of those of the last
`N` values that were added no longer than the time to live ago, and no index has left the ring. -/
theorem timeLimited_get (hN : 0 < N) (v : Nat → ℚ) (t : Nat → TInstant) (ttl : UInt64)
    (calls : List TCall) (now : TInstant)
    (hclock : (calls.map TCall.time ++ [now]).Pairwise (· ≤ ·)) :
    ∃ s r s', run (N := N) { v, t, sum := 0, ttl } calls = .ok s ∧ s.cur < N ∧
      s.get now = .ok (r, s') ∧
      s'.cur < N ∧
      r = ((((addedIn calls).rtake N).filter fun p => now.toNat - p.2.toNat ≤ ttl.toNat).map
        Prod.fst |>.sum,
        (((addedIn calls).rtake N).filter fun p => now.toNat - p.2.toNat ≤ ttl.toNat).length) := by
  have hclock₀ : (0 :: calls.map TCall.time ++ [now]).Pairwise (· ≤ ·) :=
    List.pairwise_cons.2 ⟨fun _ _ => UInt64.zero_le, hclock⟩
  obtain ⟨s, hrun, httl, h⟩ := (holds_init hN v t ttl).run hclock₀
  obtain ⟨r, s', hget, -, h', hr⟩ := h.get
  rw [httl] at hr
  exact ⟨s, r, s', hrun, h.cur, hget, h'.cur, hr⟩

/-- Two slots: the first value is overwritten, and the second one is just fresh. -/
theorem timeLimited_get_two :
    ∃ s r s', run (N := 2) { v := fun _ => 0, t := fun _ => 0, sum := 0, ttl := 10 }
        [.add 0 5, .add 3 7, .get 4, .add 12 1] = .ok s ∧ s.cur < 2 ∧ s.get 13 = .ok (r, s') ∧
        s'.cur < 2 ∧
      r = (8, 2) := by
  obtain ⟨s, r, s', hrun, hcur, hget, hcur', hr⟩ :=
    timeLimited_get (N := 2) Nat.two_pos (fun _ => 0) (fun _ => 0) 10
    [.add 0 5, .add 3 7, .get 4, .add 12 1] 13 (by decide)
  exact ⟨s, r, s', hrun, hcur, hget, hcur', hr.trans (by decide +kernel)⟩

end TTimeLimitedAvgTracker

/-! ### Percentiles -/

namespace TMedianTracker

variable {N : Nat} {s : TMedianTracker N} {samples : List ℚ}

/-- The tracker after `samples`: the last of them are in the ring, from the slot `start` on. -/
structure Holds (s : TMedianTracker N) (samples : List ℚ) : Prop where
  n : s.n = samples.length % 2 ^ 64
  ring : ∃ start < N, s.c = (start + min samples.length N) % N ∧ (samples.length < N → start = 0) ∧
    Ring.view N start (min samples.length N) s.v = (samples.rtake N).map some

theorem holds_init (hN : 0 < N) : Holds ({} : TMedianTracker N) [] := by
  refine ⟨rfl, 0, hN, ?_, fun _ => rfl, ?_⟩
  · rw [List.length_nil, Nat.zero_min, Nat.zero_mod]
  · rw [List.length_nil, Nat.zero_min, view_zero, List.rtake, List.drop_nil, List.map_nil]

theorem rtake_of_length_le {α : Type} {l : List α} {n : Nat} (h : l.length ≤ n) :
    l.rtake n = l := by
  rw [List.rtake, Nat.sub_eq_zero_of_le h, List.drop_zero]

theorem Holds.add (h : s.Holds samples) (x : ℚ) :
    ∃ s', s.add x = .ok s' ∧ s'.Holds (samples ++ [x]) := by
  obtain ⟨start, hstart, hc, hfirst, hview⟩ := h.ring
  have hN : 0 < N := Nat.zero_lt_of_lt hstart
  refine ⟨_, if_pos (hc ▸ Nat.mod_lt _ hN), ?_, ?_⟩
  · rw [h.n, List.length_append, List.length_singleton, Nat.mod_add_mod]
  · rw [List.length_append, List.length_singleton, hc]
    rcases Nat.lt_or_ge samples.length N with hlt | hge
    · rw [Nat.min_eq_left hlt.le] at hview ⊢
      rw [Nat.min_eq_left (Nat.succ_le_of_lt hlt)]
      refine ⟨start, hstart, ?_, fun _ => hfirst hlt, ?_⟩
      · rw [Nat.mod_add_mod, Nat.add_assoc]
      · rw [view_push start _ hlt, hview, rtake_of_length_le hlt.le, rtake_of_length_le,
          List.map_append, List.map_singleton]
        rw [List.length_append, List.length_singleton]
        exact hlt
    · rw [Nat.min_eq_right hge] at hview ⊢
      rw [Nat.min_eq_right (Nat.le_succ_of_le hge), Nat.add_mod_right, Nat.mod_eq_of_lt hstart]
      refine ⟨(start + 1) % N, Nat.mod_lt _ hN, ?_, fun hlt => absurd hlt (by omega), ?_⟩
      · rw [Nat.add_mod_right, Nat.mod_mod]
      · rw [view_overwrite hstart, hview, rtake_concat_of_le hN hge, List.map_append,
          List.map_singleton, List.map_tail]

theorem exists_ofSamples (hN : 0 < N) (samples : List ℚ) :
    ∃ s, ofSamples N samples = .ok s ∧ s.Holds samples := by
  induction samples using List.reverseRecOn with
  | nil => exact ⟨{}, rfl, holds_init hN⟩
  | append_singleton samples x ih =>
    obtain ⟨s, hs, h⟩ := ih
    obtain ⟨s', hs', h'⟩ := h.add x
    refine ⟨s', ?_, h'⟩
    rw [ofSamples, List.foldlM_append, ← ofSamples, hs]
    exact (bind_pure _).trans hs'

/-- The slots that were written hold the last samples. -/
theorem Holds.slots (h : s.Holds samples) :
    ∃ vals : List ℚ, (List.range (min samples.length N)).map s.v = vals.map some ∧
      vals.Perm (samples.rtake N) := by
  obtain ⟨start, hstart, -, hfirst, hview⟩ := h.ring
  have hperm : ((samples.rtake N).map some).Perm ((List.range (min samples.length N)).map s.v) := by
    rcases Nat.lt_or_ge samples.length N with hlt | hge
    · rw [hfirst hlt] at hview
      rw [← hview, Ring.view]
      refine .of_eq (List.map_congr_left fun k hk => ?_)
      rw [Nat.zero_add, Nat.mod_eq_of_lt ((List.mem_range.1 hk).trans_le (Nat.min_le_right _ _))]
    · rw [Nat.min_eq_right hge] at hview ⊢
      rw [← hview]
      exact view_perm
  refine ⟨((List.range (min samples.length N)).map s.v).map (Option.getD · 0), ?_, ?_⟩
  · -- none of them is empty
    rw [List.map_map]
    refine ((List.map_congr_left fun x hx => ?_).trans (List.map_id _)).symm
    obtain ⟨v, -, rfl⟩ := List.mem_map.1 (hperm.mem_iff.2 hx)
    rfl
  · have hvals := hperm.map (Option.getD · 0)
    rw [List.map_map] at hvals
    exact hvals.symm.trans (.of_eq (List.map_id _))

/-- Reads of written slots give what was written. -/
theorem mapM_read {ι : Type} {f : ι → Option ℚ} {l : List ι} {vals : List ℚ}
    (h : l.map f = vals.map some) : l.mapM (fun i => read (f i)) = .ok vals := by
  have hread : ∀ i ∈ l, read (f i) = .ok ((f i).getD 0) := by
    intro i hi
    have hmem : f i ∈ vals.map some := h ▸ List.mem_map_of_mem hi
    obtain ⟨v, -, hv⟩ := List.mem_map.1 hmem
    rw [← hv]
    rfl
  have hvals := congrArg (List.map (·.getD 0)) h
  rw [List.map_map, List.map_map, show (fun o : Option ℚ => o.getD 0) ∘ some = id from rfl,
    List.map_id] at hvals
  rw [Fallible.mapM_eq hread]
  exact congrArg Except.ok hvals

/-- The entries of a list, as the sequence that `VC_` is. -/
def entries (l : List ℚ) (i : Nat) : ℚ := l.getD i 0

theorem width_eq {f l : Nat} (hfl : f ≤ l) (hl : l < 2 ^ 64) : width f l = l - f := by
  rw [width, Nat.add_sub_assoc hfl, Nat.add_mod_left]
  exact Nat.mod_eq_of_lt ((Nat.sub_le _ _).trans_lt hl)

/-- What `Get` computes when the slots that it copies hold `copy`. -/
theorem get_eq {copy : List ℚ} {n f l pos : Nat}
    (hcopy : (List.range (min s.n N)).map s.v = copy.map some) (hpos : position n copy.length = pos)
    (hf : first pos = .ok f) (hl : min (pos + 3) copy.length = l) (hfl : f < l) (hl' : l < 2 ^ 64)
    (hcopy' : ∀ x ∈ copy, 0 ≤ x ∧ x < 2 ^ 64) :
    s.get n = .ok ⌊WindowMean.mean (entries (copy.mergeSort (· ≤ ·))) f l⌋₊ := by
  have hlen : copy.length = min s.n N := by
    rw [← List.length_map (f := some), ← hcopy, List.length_map, List.length_range]
  have hlsort : l ≤ (copy.mergeSort (· ≤ ·)).length := by
    rw [List.length_mergeSort, ← hl]
    exact Nat.min_le_right _ _
  have hentries : ∀ i < l, (copy.mergeSort (· ≤ ·))[i]? =
      some (entries (copy.mergeSort (· ≤ ·)) i) ∧
      entries (copy.mergeSort (· ≤ ·)) i ∈ copy := by
    intro i hi
    have hi' := hi.trans_le hlsort
    rw [entries, List.getD_eq_getElem _ _ hi', List.getElem?_eq_getElem hi']
    exact ⟨rfl, (List.mergeSort_perm _ _).mem_iff.1 (List.getElem_mem hi')⟩
  have hvalues : (List.range' f (l - f)).mapM (fun i => read (copy.mergeSort (· ≤ ·))[i]?) =
      .ok ((List.range' f (l - f)).map (entries (copy.mergeSort (· ≤ ·)))) := by
    refine mapM_read ?_
    rw [List.map_map]
    refine List.map_congr_left fun i hi => (hentries i ?_).1
    rw [List.mem_range'_1] at hi
    omega
  have hwidth : width f l = l - f := width_eq hfl.le hl'
  have hdiv : TFault.div ((List.range' f (l - f)).map (entries (copy.mergeSort (· ≤ ·)))).sum
      ((l - f : ℕ) : ℚ) = .ok (WindowMean.mean (entries (copy.mergeSort (· ≤ ·))) f l) := by
    rw [TFault.div, if_neg (width_pos hfl).ne', WindowMean.mean, Finset.sum, Nat.Ico_eq_range']
    rfl
  have hmean : 0 ≤ WindowMean.mean (entries (copy.mergeSort (· ≤ ·))) f l ∧
      WindowMean.mean (entries (copy.mergeSort (· ≤ ·))) f l < 2 ^ 64 :=
    ⟨le_mean hfl fun i _ hi => (hcopy' _ (hentries i hi).2).1,
      mean_lt hfl fun i _ hi => (hcopy' _ (hentries i hi).2).2⟩
  have hfilled : copy.length ≠ 0 := by omega
  rw [hlen] at hfilled hpos hl
  simp only [get, if_neg hfilled, mapM_read hcopy, hpos, hf, hl, Fallible.ok_bind, hvalues, hwidth,
    hdiv]
  exact if_pos hmean

/-- The position of a percentile is in the range of `int` when the number of values is. -/
theorem position_le {n filled : Nat} (hn : n ≤ 100) (hfilled : filled < 2 ^ 31) :
    position n filled = n * filled / 100 ∧ position n filled ≤ filled := by
  have hle : n * filled ≤ 100 * filled := Nat.mul_le_mul_right _ hn
  have hpos : position n filled = n * filled / 100 := by
    rw [position, Nat.mod_eq_of_lt (by omega)]
  exact ⟨hpos, hpos.trans_le (Nat.div_le_of_le_mul hle)⟩

theorem first_eq {pos : Nat} (hpos : pos < 2 ^ 31) : first pos = .ok (pos - 2) := by
  have hmod : Int.bmod (pos : Int) (2 ^ 32) = pos := by
    refine Int.bmod_eq_of_le ?_ ?_ <;> norm_num only <;> omega
  have hlow : ¬((pos : Int) - 2 < -2 ^ 31) := by
    norm_num only
    omega
  have hnat : (max ((pos : Int) - 2) 0).toNat = pos - 2 := by omega
  unfold first
  simp only [hmod, if_neg hlow, hnat]

/-- The sorted copy does not fall. -/
theorem entries_monotoneOn (copy : List ℚ) :
    MonotoneOn (entries (copy.mergeSort (· ≤ ·))) (Set.Iio copy.length) := by
  intro i hi j hj hij
  have hlen : (copy.mergeSort (· ≤ ·)).length = copy.length := List.length_mergeSort copy
  rw [Set.mem_Iio, ← hlen] at hi hj
  rw [entries, entries, List.getD_eq_getElem _ _ hi, List.getD_eq_getElem _ _ hj]
  exact (List.pairwise_mergeSort' (· ≤ ·) copy).rel_get_of_le hij

/-- What a tracker of fewer than `2 ^ 31` slots returns: the mean of a window in the sorted copy. -/
theorem get_copy {copy : List ℚ} (hN : N < 2 ^ 31)
    (hcopy : (List.range (min s.n N)).map s.v = copy.map some) (hne : copy ≠ [])
    (hrange : ∀ x ∈ copy, 0 ≤ x ∧ x < 2 ^ 64) {n : Nat} (hn : n ≤ 100) :
    n * copy.length / 100 - 2 < min (n * copy.length / 100 + 3) copy.length ∧
      s.get n = .ok ⌊WindowMean.mean (entries (copy.mergeSort (· ≤ ·))) (n * copy.length / 100 - 2)
        (min (n * copy.length / 100 + 3) copy.length)⌋₊ := by
  have hlen : copy.length = min s.n N := by
    rw [← List.length_map (f := some), ← hcopy, List.length_map, List.length_range]
  have hpos : 0 < copy.length := List.length_pos_iff.2 hne
  have hlt : copy.length < 2 ^ 31 := by
    rw [hlen]
    exact (Nat.min_le_right _ _).trans_lt hN
  obtain ⟨hposition, hle⟩ := position_le hn hlt
  rw [hposition] at hle
  have hfl : n * copy.length / 100 - 2 < min (n * copy.length / 100 + 3) copy.length := by omega
  refine ⟨hfl, get_eq hcopy hposition (first_eq (hle.trans_lt hlt)) rfl hfl ?_ hrange⟩
  exact ((Nat.min_le_right _ _).trans_lt hlt).trans (by norm_num)

/-- The copy holds the last samples. -/
theorem Holds.get (h : s.Holds samples) (hN : N < 2 ^ 31) (hlen : samples.length < 2 ^ 64)
    (hne : samples ≠ []) (hs : ∀ x ∈ samples, 0 ≤ x ∧ x < 2 ^ 64) :
    ∃ vc : List ℚ, vc.Perm (samples.rtake N) ∧ MonotoneOn (entries vc) (Set.Iio vc.length) ∧
      ∀ n ≤ 100, n * vc.length / 100 - 2 < min (n * vc.length / 100 + 3) vc.length ∧
      s.get n = .ok ⌊WindowMean.mean (entries vc) (n * vc.length / 100 - 2)
        (min (n * vc.length / 100 + 3) vc.length)⌋₊ := by
  obtain ⟨copy, hcopy, hperm⟩ := h.slots
  have hn : s.n = samples.length := h.n.trans (Nat.mod_eq_of_lt hlen)
  rw [← hn] at hcopy
  have hcopyne : copy ≠ [] := by
    obtain ⟨start, hstart, -⟩ := h.ring
    rw [← List.length_pos_iff, hperm.length_eq, length_rtake]
    exact lt_min (List.length_pos_iff.2 hne) (Nat.zero_lt_of_lt hstart)
  have hrange : ∀ x ∈ copy, 0 ≤ x ∧ x < 2 ^ 64 := by
    intro x hx
    exact hs x ((List.drop_subset _ _) (hperm.mem_iff.1 hx))
  refine ⟨copy.mergeSort (· ≤ ·), (List.mergeSort_perm _ _).trans hperm, ?_, fun n hn100 => ?_⟩
  · rw [List.length_mergeSort]
    exact entries_monotoneOn copy
  · rw [List.length_mergeSort]
    exact get_copy hN hcopy hcopyne hrange hn100

/-- The entries of a list that is not empty lie between two of its elements, and so do means of
them. -/
theorem mean_between {vc : List ℚ} {f l : Nat} (hmono : MonotoneOn (entries vc) (Set.Iio vc.length))
    (hfl : f < l) (hl : l ≤ vc.length) :
    ∃ lo ∈ vc, ∃ hi ∈ vc, (∀ x ∈ vc, lo ≤ x ∧ x ≤ hi) ∧ lo ≤ WindowMean.mean (entries vc) f l ∧
      WindowMean.mean (entries vc) f l ≤ hi := by
  have hmem : ∀ i < vc.length, entries vc i ∈ vc := by
    intro i hi
    rw [entries, List.getD_eq_getElem _ _ hi]
    exact List.getElem_mem hi
  have hbounds : ∀ i < vc.length, entries vc 0 ≤ entries vc i ∧
      entries vc i ≤ entries vc (vc.length - 1) := by
    intro i hi
    exact ⟨hmono (Set.mem_Iio.2 (Nat.zero_lt_of_lt hi)) (Set.mem_Iio.2 hi) (Nat.zero_le i),
      hmono (Set.mem_Iio.2 hi) (Set.mem_Iio.2 (by omega)) (by omega)⟩
  refine ⟨entries vc 0, hmem 0 (by omega), entries vc (vc.length - 1), hmem _ (by omega),
    fun x hx => ?_, ?_, ?_⟩
  · obtain ⟨i, hi, rfl⟩ := List.getElem_of_mem hx
    have hi' := hbounds i hi
    rwa [entries.eq_1 vc i, List.getD_eq_getElem _ _ hi] at hi'
  · exact le_mean hfl fun i _ hi => (hbounds i (hi.trans_le hl)).1
  · exact mean_le hfl fun i _ hi => (hbounds i (hi.trans_le hl)).2

/-- For every size below `2 ^ 31` and every history of fewer than `2 ^ 64` samples below `2 ^ 64`:
`Get` reads written slots only, does not fall with the percentile, and its result lies between the
smallest and the largest of the last samples, rounded down; without samples it is 0. -/
theorem median_get (hN : 0 < N) (hN' : N < 2 ^ 31) (samples : List ℚ)
    (hlen : samples.length < 2 ^ 64) (hs : ∀ x ∈ samples, 0 ≤ x ∧ x < 2 ^ 64) :
    ∃ s, ofSamples N samples = .ok s ∧ ∀ n₁ n₂, n₁ ≤ n₂ → n₂ ≤ 100 →
      ∃ r₁ r₂, s.get n₁ = .ok r₁ ∧ s.get n₂ = .ok r₂ ∧ r₁ ≤ r₂ ∧ (samples = [] → r₁ = 0 ∧ r₂ = 0) ∧
        (samples ≠ [] → ∃ lo ∈ samples.rtake N, ∃ hi ∈ samples.rtake N,
          (∀ x ∈ samples.rtake N, lo ≤ x ∧ x ≤ hi) ∧ ⌊lo⌋₊ ≤ r₁ ∧ r₂ ≤ ⌊hi⌋₊) := by
  obtain ⟨s, hofSamples, h⟩ := exists_ofSamples hN samples
  refine ⟨s, hofSamples, fun n₁ n₂ h12 h100 => ?_⟩
  by_cases hne : samples = []
  · have hget : ∀ n, s.get n = .ok 0 := by
      intro n
      have hn : s.n = 0 := by rw [h.n, hne, List.length_nil, Nat.zero_mod]
      rw [TMedianTracker.get, hn, Nat.zero_min]
      exact if_pos rfl
    exact ⟨0, 0, hget n₁, hget n₂, Nat.le_refl 0, fun _ => ⟨rfl, rfl⟩, fun h => absurd hne h⟩
  · obtain ⟨vc, hperm, hmono, hget⟩ := h.get hN' hlen hne hs
    obtain ⟨hfl₁, hget₁⟩ := hget n₁ (h12.trans h100)
    obtain ⟨hfl₂, hget₂⟩ := hget n₂ h100
    have hpos : n₁ * vc.length / 100 ≤ n₂ * vc.length / 100 :=
      Nat.div_le_div_right (Nat.mul_le_mul_right _ h12)
    have hmean := mean_mono hmono hfl₁ (Nat.sub_le_sub_right hpos 2)
      (min_le_min_right vc.length (Nat.add_le_add_right hpos 3)) hfl₂ (Nat.min_le_right _ _)
    refine ⟨_, _, hget₁, hget₂, Nat.floor_le_floor hmean, fun hnil => absurd hnil hne, fun _ => ?_⟩
    obtain ⟨lo, hlo, hi, hhi, hall, hle₁, -⟩ := mean_between hmono hfl₁ (Nat.min_le_right _ _)
    obtain ⟨lo₂, hlo₂, hi₂, hhi₂, hall₂, -, hle₂⟩ := mean_between hmono hfl₂ (Nat.min_le_right _ _)
    refine ⟨lo, hperm.mem_iff.1 hlo, hi, hperm.mem_iff.1 hhi,
      fun x hx => hall x (hperm.mem_iff.2 hx), Nat.floor_le_floor hle₁,
      Nat.floor_le_floor (hle₂.trans (hall hi₂ hhi₂).2)⟩

/-- Three samples in a tracker of two slots. -/
theorem median_get_two :
    ∃ s, ofSamples 2 [7, 1, 5 / 2] = .ok s ∧ ∃ r₁ r₂, s.get 50 = .ok r₁ ∧ s.get 90 = .ok r₂ ∧
      r₁ ≤ r₂ ∧
      ∃ lo ∈ [1, 5 / 2], ∃ hi ∈ [1, 5 / 2], (∀ x ∈ [(1 : ℚ), 5 / 2], lo ≤ x ∧ x ≤ hi) ∧ ⌊lo⌋₊ ≤ r₁ ∧
      r₂ ≤ ⌊hi⌋₊ := by
  obtain ⟨s, hs, hget⟩ :=
    median_get (N := 2) Nat.two_pos (by norm_num) [7, 1, 5 / 2] (by norm_num) (by norm_num)
  obtain ⟨r₁, r₂, hget₁, hget₂, hle, -, hbetween⟩ := hget 50 90 (by norm_num) (by norm_num)
  exact ⟨s, hs, r₁, r₂, hget₁, hget₂, hle, hbetween (List.cons_ne_nil _ _)⟩

/-! ### Any number of samples -/

/-- The slot `i` was written with a value in the range of the result. -/
def Written (s : TMedianTracker N) (i : Nat) : Prop := ∃ x, s.v i = some x ∧ 0 ≤ x ∧ x < 2 ^ 64

/-- The slots below `C_` were written, or all of them; then it does not matter that `N_` starts
again. -/
structure Sound (s : TMedianTracker N) : Prop where
  c : s.c < N
  written : (s.n = s.c ∧ ∀ i < s.c, s.Written i) ∨ ∀ i < N, s.Written i

theorem sound_init (hN : 0 < N) : Sound ({} : TMedianTracker N) :=
  ⟨hN, .inl ⟨rfl, fun i hi => absurd hi (Nat.not_lt_zero i)⟩⟩

theorem Sound.add (h : s.Sound) (hN : N < 2 ^ 31) {x : ℚ} (h0 : 0 ≤ x) (hx : x < 2 ^ 64) :
    ∃ s', s.add x = .ok s' ∧ s'.Sound := by
  refine ⟨_, if_pos h.c, Nat.mod_lt _ (Nat.zero_lt_of_lt h.c), ?_⟩
  have hwrite : ∀ i, i = s.c ∨ s.Written i → Written (N := N)
      { v := Function.update s.v s.c (some x), c := (s.c + 1) % N, n := (s.n + 1) % 2 ^ 64 } i := by
    intro i hi
    by_cases hic : i = s.c
    · exact ⟨x, hic ▸ Function.update_self .., h0, hx⟩
    · obtain ⟨y, hy, hrange⟩ := hi.resolve_left hic
      exact ⟨y, (Function.update_of_ne hic ..).trans hy, hrange⟩
  rcases h.written with ⟨hn, hwritten⟩ | hall
  · rcases Nat.lt_or_eq_of_le (Nat.succ_le_of_lt h.c) with hlt | heq
    · refine .inl ⟨?_, fun i hi => hwrite i ?_⟩
      · show (s.n + 1) % 2 ^ 64 = (s.c + 1) % N
        rw [hn, Nat.mod_eq_of_lt hlt, Nat.mod_eq_of_lt (by omega)]
      · have hi' : i < s.c + 1 := by rwa [Nat.mod_eq_of_lt hlt] at hi
        exact (Nat.lt_succ_iff_lt_or_eq.1 hi').symm.imp_right (hwritten i)
    · refine .inr fun i hi => hwrite i ?_
      exact (Nat.lt_succ_iff_lt_or_eq.1 (hi.trans_eq heq.symm)).symm.imp_right (hwritten i)
  · exact .inr fun i hi => hwrite i (.inr (hall i hi))

theorem Sound.get (h : s.Sound) (hN : N < 2 ^ 31) {n : Nat} (hn : n ≤ 100) :
    ∃ r, s.get n = .ok r := by
  have hwritten : ∀ i < min s.n N, s.Written i := by
    intro i hi
    rcases h.written with ⟨hnc, hwritten⟩ | hall
    · exact hwritten i ((hi.trans_le (Nat.min_le_left _ _)).trans_eq hnc)
    · exact hall i (hi.trans_le (Nat.min_le_right _ _))
  by_cases hzero : min s.n N = 0
  · exact ⟨0, if_pos hzero⟩
  · have hcopy : (List.range (min s.n N)).map s.v =
        ((List.range (min s.n N)).map fun i => (s.v i).getD 0).map some := by
      rw [List.map_map]
      refine List.map_congr_left fun i hi => ?_
      obtain ⟨x, hx, -⟩ := hwritten i (List.mem_range.1 hi)
      show s.v i = some ((s.v i).getD 0)
      rw [hx, Option.getD_some]
    refine ⟨_, (get_copy hN hcopy ?_ ?_ hn).2⟩
    · rwa [ne_eq, List.map_eq_nil_iff, List.range_eq_nil]
    · refine List.forall_mem_map.2 fun i hi => ?_
      obtain ⟨x, hx, hrange⟩ := hwritten i (List.mem_range.1 hi)
      rwa [hx, Option.getD_some]

/-! ### Positions that `int` can not hold -/

/-- The smallest position whose difference is in the range of `int` but negative. -/
theorem first_wraps {pos : Nat} (hpos : pos = 2 ^ 31 + 2) : first pos = .ok 0 := by
  have hmod : Int.bmod (pos : Int) (2 ^ 32) = -2 ^ 31 + 2 := by
    rw [hpos, Int.bmod_def]
    norm_num
  have hlow : ¬((-2 ^ 31 + 2 : Int) - 2 < -2 ^ 31) := by norm_num
  have hnat : (max ((-2 ^ 31 + 2 : Int) - 2) 0).toNat = 0 := by norm_num
  unfold first
  simp only [hmod, if_neg hlow, hnat]

/-- A sample of 0 and then samples of 1, until the slots are full. -/
def rising (M : Nat) : List ℚ := 0 :: List.replicate (M - 1) 1

theorem entries_rising {M i : Nat} (hi : 0 < i) (hiM : i < M) : entries (rising M) i = 1 := by
  obtain ⟨i, rfl⟩ := Nat.exists_eq_add_one.2 hi
  have hlt : i < (List.replicate (M - 1) (1 : ℚ)).length := by
    rw [List.length_replicate]
    omega
  rw [entries, rising, List.getD_cons_succ, List.getD_eq_getElem _ _ hlt, List.getElem_replicate]

theorem rising_sorted (M : Nat) : (rising M).Pairwise (· ≤ ·) := by
  refine List.pairwise_cons.2 ⟨fun x hx => ?_, List.pairwise_replicate.2 (.inr (le_refl _))⟩
  rw [List.eq_of_mem_replicate hx]
  exact zero_le_one

/-- The samples behind the first one have the mean 1. -/
theorem mean_rising {M f l : Nat} (hf : 0 < f) (hfl : f < l) (hl : l ≤ M) :
    WindowMean.mean (entries (rising M)) f l = 1 := by
  have hone : ∀ i, f ≤ i → i < l → entries (rising M) i = 1 := fun i hi hil =>
    entries_rising (hf.trans_le hi) (hil.trans_le hl)
  exact le_antisymm (mean_le hfl fun i hi hil => (hone i hi hil).le)
    (le_mean hfl fun i hi hil => (hone i hi hil).ge)

/-- The mean of all samples is below 1. -/
theorem mean_rising_lt {M : Nat} (hM : 0 < M) : WindowMean.mean (entries (rising M)) 0 M < 1 := by
  have hpos : (0 : ℚ) < ((M - 0 : ℕ) : ℚ) := width_pos hM
  have hsum : ∑ i ∈ Finset.Ico 1 M, entries (rising M) i ≤ (M - 1 : ℕ) := by
    have hle := Finset.sum_le_card_nsmul (Finset.Ico 1 M) (entries (rising M)) 1 fun i hi =>
      (entries_rising (Finset.mem_Ico.1 hi).1 (Finset.mem_Ico.1 hi).2).le
    rwa [Nat.card_Ico, nsmul_one] at hle
  have hcast : ((M - 1 : ℕ) : ℚ) < ((M - 0 : ℕ) : ℚ) := Nat.cast_lt.2 (by omega)
  have hfirst : entries (rising M) 0 = 0 := rfl
  rw [WindowMean.mean, div_lt_one hpos, Finset.sum_eq_sum_Ico_succ_bot hM, hfirst, zero_add]
  exact hsum.trans_lt hcast

/-- In a tracker of `2 ^ 31 + 2` slots the highest percentile is the mean of all samples. -/
theorem rising_get {M : Nat} (hM : M = 2 ^ 31 + 2) :
    ∃ s, ofSamples M (rising M) = .ok s ∧ s.get 99 = .ok 1 ∧ s.get 100 = .ok 0 := by
  obtain ⟨s, hs, h⟩ := exists_ofSamples (N := M) (by omega) (rising M)
  have hlen : (rising M).length = M := by
    rw [rising, List.length_cons, List.length_replicate]
    omega
  obtain ⟨copy, hcopy, hperm⟩ := h.slots
  rw [rtake_of_length_le hlen.le] at hperm
  have hn : s.n = (rising M).length := h.n.trans (Nat.mod_eq_of_lt (by omega))
  have hsort : copy.mergeSort (· ≤ ·) = rising M :=
    ((List.mergeSort_perm _ _).trans hperm).eq_of_pairwise' (r := (· ≤ ·))
      (List.pairwise_mergeSort' _ _) (rising_sorted M)
  have hcopylen : copy.length = M := hperm.length_eq.trans hlen
  have hrange : ∀ x ∈ copy, 0 ≤ x ∧ x < 2 ^ 64 := by
    intro x hx
    rcases List.mem_cons.1 (hperm.mem_iff.1 hx) with rfl | hx
    · norm_num
    · rw [List.eq_of_mem_replicate hx]
      norm_num
  rw [← hn] at hcopy
  refine ⟨s, hs, ?_, ?_⟩
  · -- here the window is at the end
    obtain ⟨pos, hpos⟩ : ∃ pos, pos = 99 * M / 100 := ⟨_, rfl⟩
    have hposition : position 99 copy.length = pos := by
      rw [position, hcopylen, Nat.mod_eq_of_lt (by omega), hpos]
    rw [get_eq hcopy hposition (first_eq (by omega)) rfl (by omega) (by omega) hrange, hsort,
      hcopylen]
    rw [mean_rising (by omega) (by omega) (Nat.min_le_right ..), Nat.floor_one]
  · have hposition : position 100 copy.length = M := by
      rw [position, hcopylen, Nat.mod_eq_of_lt (by omega), Nat.mul_div_cancel_left _ (by omega)]
    rw [get_eq hcopy hposition (first_wraps hM) rfl (by omega) (by omega) hrange, hsort, hcopylen]
    have hmin : min (M + 3) M = M := by omega
    rw [hmin, Nat.floor_eq_zero.2 (mean_rising_lt (by omega))]

/-- The 99th percentile is above the 100th, and so above the mean of all samples. -/
theorem median_get_wraps :
    ∃ s, ofSamples (2 ^ 31 + 2) (rising (2 ^ 31 + 2)) = .ok s ∧ s.get 99 = .ok 1 ∧
      s.get 100 = .ok 0 :=
  rising_get rfl

end TMedianTracker

end Balancer
