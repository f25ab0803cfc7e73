import Balancer.Theory.Runs
import Balancer.Util.RbTree
import Balancer.Util.Wait

/-!
# The tree of waits

`TEventWaitQueue::CancelTimedOut` of `util/green/impl.h`, over the red-black tree `IoWait_`. A woken
wait takes itself out of the tree while the loop walks over it, and the tree is rebalanced each
time; the iterator has been moved to the next element before.

`TIoWait.queue` forgets the tree. The operations of the list of waits in `TContScheduler` are then
those of the tree.
-/

namespace Balancer

open Runs TContPollEvent

def TContPollEventCompare : TRbTreeCompare TContPollEvent where
  compare := compare
  asymm a b h := by
    have := (Std.Total.total (r := TContPollEvent.NotAfter) a b).resolve_right
    exact this (not_not_intro h)
  trans a b c := IsTrans.trans (r := TContPollEvent.NotAfter) a b c

abbrev TIoWait := TRbTree TContPollEventCompare

/-- What `CancelTimedOut` works on. `status` is `Status_` of the events, and `woken` is a log of the
calls of `Wake`. -/
structure TIoWaitState where
  ioWait : TIoWait := .empty
  e : TContExecutor
  status : TContPollEvent → Int
  woken : List TContPollEvent := []

namespace TIoWaitState

/-- `TContPollEvent::Wake(status)` -/
def wake (status : Int) (s : TIoWaitState) (ev : TContPollEvent) : TIoWaitState where
  ioWait := s.ioWait.unLink ev
  e := s.e.scheduleExecution ev.cont
  status := Function.update s.status ev status
  woken := s.woken ++ [ev]

/-- The body of the loop of `CancelTimedOut`, with the iterator at `p.1`. -/
def cancelBody (now : TInstant) (p : TContPollEvent × TIoWaitState) :
    Turn Unit (TContPollEvent × TIoWaitState) :=
  let it := p.2.ioWait.increment p.1
  let s := p.2.wake ETIMEDOUT p.1
  match it with
  | none => .exit () (p.1, s)
  | some ev => if ev.deadLine ≤ now then .again (ev, s) else .exit () (ev, s)

/-- `CancelTimedOut`, with at most `fuel` turns of the loop. -/
def cancelTimedOut (fuel : Nat) (s : TIoWaitState) (now : TInstant) :
    Option (TInstant × TIoWaitState) :=
  match s.ioWait.begin with
  | none => some (now, s)
  | some ev =>
    if ev.deadLine > now then some (ev.deadLine, s)
    else
      match turns (cancelBody now) fuel (ev, s) with
      | .exit _ p => some (now, p.2)
      | _ => none

/-! ### The loop -/

/-- The waits that are due come first. -/
theorem takeWhile_due (now : TInstant) {evs : List TContPollEvent}
    (h : evs.Pairwise fun a b => a.deadLine ≤ b.deadLine) :
    (evs.takeWhile fun ev => ev.deadLine ≤ now) = evs.filter fun ev => ev.deadLine ≤ now := by
  induction evs with
  | nil => rfl
  | cons ev evs ih =>
    obtain ⟨hev, hevs⟩ := List.pairwise_cons.1 h
    by_cases hdue : ev.deadLine ≤ now
    · simp [hdue, ih hevs]
    · have hnone : (evs.filter fun ev => ev.deadLine ≤ now) = [] := by
        refine List.filter_eq_nil_iff.2 fun ev' hmem => ?_
        simp only [decide_eq_true_eq]
        exact fun hle => hdue (UInt64.le_trans (hev ev' hmem) hle)
      simp [hdue, hnone]

theorem dropWhile_due (now : TInstant) {evs : List TContPollEvent}
    (h : evs.Pairwise fun a b => a.deadLine ≤ b.deadLine) :
    (evs.dropWhile fun ev => ev.deadLine ≤ now) = evs.filter fun ev => now < ev.deadLine := by
  induction evs with
  | nil => rfl
  | cons ev evs ih =>
    obtain ⟨hev, hevs⟩ := List.pairwise_cons.1 h
    by_cases hdue : ev.deadLine ≤ now
    · simp [hdue, ih hevs, UInt64.not_lt.2 hdue]
    · have hlt : now < ev.deadLine := UInt64.not_le.1 hdue
      have hall : (evs.filter fun ev => now < ev.deadLine) = evs := by
        refine List.filter_eq_self.2 fun ev' hmem => ?_
        simp only [decide_eq_true_eq]
        exact UInt64.lt_of_lt_of_le hlt (hev ev' hmem)
      simp [hdue, hlt, hall]

theorem deadLines_sorted (t : TIoWait) : t.toList.Pairwise fun a b => a.deadLine ≤ b.deadLine := by
  refine t.sorted.imp fun {a b} h => ?_
  rcases notAfter_iff.1 h with h | ⟨h, -⟩
  · exact UInt64.le_of_lt (UInt64.lt_iff_toNat_lt.2 h)
  · exact UInt64.le_iff_toNat_le.2 (Nat.le_of_eq h)

/-- The loop wakes the waits that are due, from the one that the iterator stands at. -/
theorem turns_cancelBody (now : TInstant) {s : TIoWaitState} {ev : TContPollEvent}
    {rest : List TContPollEvent} (h : s.ioWait.toList = ev :: rest) (hdue : ev.deadLine ≤ now) :
    ∃ n it, turns (cancelBody now) n (ev, s) =
      .exit () (it, ((ev :: rest).takeWhile fun ev => ev.deadLine ≤ now).foldl (wake ETIMEDOUT)
        s) := by
  induction rest generalizing s ev with
  | nil =>
    have hit : s.ioWait.increment ev = none := s.ioWait.increment_head h
    exact ⟨1, ev, by simp [turns, cancelBody, hit, hdue]⟩
  | cons ev' rest ih =>
    have hit : s.ioWait.increment ev = some ev' := s.ioWait.increment_head h
    have hwoken : (s.wake ETIMEDOUT ev).ioWait.toList = ev' :: rest := by
      show (s.ioWait.unLink ev).toList = _
      rw [TRbTree.toList_unLink, h, List.erase_cons_head]
    by_cases hdue' : ev'.deadLine ≤ now
    · obtain ⟨n, it, hn⟩ := ih hwoken hdue'
      have hbody : cancelBody now (ev, s) = .again (ev', s.wake ETIMEDOUT ev) := by
        simp [cancelBody, hit, hdue']
      refine ⟨n + 1, it, ?_⟩
      rw [turns_again hbody, hn]
      simp [hdue]
    · exact ⟨1, ev', by simp [turns, cancelBody, hit, hdue, hdue']⟩

/-! ### What the calls of `Wake` do -/

section Wake

variable (status : Int) (s : TIoWaitState) (evs : List TContPollEvent)

theorem foldl_wake_woken : (evs.foldl (wake status) s).woken = s.woken ++ evs := by
  induction evs generalizing s with
  | nil => simp
  | cons ev evs ih =>
    rw [List.foldl_cons, ih]
    simp [wake]

theorem foldl_wake_status (ev : TContPollEvent) :
    (evs.foldl (wake status) s).status ev = if ev ∈ evs then status else s.status ev := by
  induction evs generalizing s with
  | nil => simp
  | cons ev' evs ih =>
    rw [List.foldl_cons, ih]
    by_cases hmem : ev ∈ evs
    · simp [hmem]
    · by_cases heq : ev = ev'
      · simp [heq, wake]
      · simp [hmem, heq, wake]

theorem foldl_wake_toList {rest : List TContPollEvent} (h : s.ioWait.toList = evs ++ rest) :
    (evs.foldl (wake status) s).ioWait.toList = rest := by
  induction evs generalizing s with
  | nil => exact h
  | cons ev evs ih =>
    refine ih (s.wake status ev) ?_
    show (s.ioWait.unLink ev).toList = _
    rw [TRbTree.toList_unLink, h, List.cons_append, List.erase_cons_head]

theorem foldl_wake_ready (c : Nat) :
    c ∈ (evs.foldl (wake status) s).e.ready ↔ c ∈ s.e.ready ∨ ∃ ev ∈ evs, ev.cont = c := by
  induction evs generalizing s with
  | nil => simp
  | cons ev evs ih =>
    have hwake : c ∈ (s.wake status ev).e.ready ↔ c ∈ s.e.ready ∨ ev.cont = c := by
      show c ∈ s.e.ready.erase ev.cont ++ [ev.cont] ↔ _
      by_cases heq : c = ev.cont
      · simp [heq]
      · simp [heq, List.mem_erase_of_ne heq, Ne.symm heq]
    rw [List.foldl_cons, ih, hwake]
    simp [or_assoc]

theorem foldl_wake_executor :
    { (evs.foldl (wake status) s).e with ready := s.e.ready } = s.e := by
  induction evs generalizing s with
  | nil => rfl
  | cons ev evs ih =>
    have h := ih (s.wake status ev)
    rw [TContExecutor.mk.injEq] at h
    rw [List.foldl_cons, TContExecutor.mk.injEq]
    exact ⟨h.1, rfl, h.2.2⟩

end Wake

/-! ### `CancelTimedOut` -/

/-- The waits whose time is up. -/
def due (s : TIoWaitState) (now : TInstant) : List TContPollEvent :=
  s.ioWait.toList.filter fun ev => ev.deadLine ≤ now

/-- `CancelTimedOut(now)` has gone from `s` to `s'` and returned `next`. -/
structure Cancelled (s : TIoWaitState) (now next : TInstant) (s' : TIoWaitState) : Prop where
  woken : s'.woken = s.woken ++ s.due now
  once : (s.due now).Nodup
  inOrder : (s.due now).Pairwise fun a b => a.deadLine ≤ b.deadLine
  left : s'.ioWait.toList = s.ioWait.toList.filter fun ev => now < ev.deadLine
  status : ∀ ev, s'.status ev = if ev ∈ s.due now then ETIMEDOUT else s.status ev
  ready : ∀ c, c ∈ s'.e.ready ↔ c ∈ s.e.ready ∨ ∃ ev ∈ s.due now, ev.cont = c
  executor : { s'.e with ready := s.e.ready } = s.e
  returned_now : s.due now ≠ [] ∨ s.ioWait.toList = [] → next = now
  returned_least : s.due now = [] → s.ioWait.toList ≠ [] →
    (∃ ev ∈ s'.ioWait.toList, ev.deadLine = next) ∧ ∀ ev ∈ s'.ioWait.toList, next ≤ ev.deadLine

/-- The state after `CancelTimedOut(now)`. -/
def cancelled (s : TIoWaitState) (now : TInstant) : TIoWaitState :=
  (s.due now).foldl (wake ETIMEDOUT) s

/-- What `CancelTimedOut(now)` returns. -/
def next (s : TIoWaitState) (now : TInstant) : TInstant :=
  match s.ioWait.toList with
  | [] => now
  | ev :: _ => if ev.deadLine > now then ev.deadLine else now

theorem due_eq_takeWhile (s : TIoWaitState) (now : TInstant) :
    s.due now = s.ioWait.toList.takeWhile fun ev => ev.deadLine ≤ now :=
  (takeWhile_due now (deadLines_sorted s.ioWait)).symm

theorem toList_cancelled (s : TIoWaitState) (now : TInstant) :
    (s.cancelled now).ioWait.toList = s.ioWait.toList.filter fun ev => now < ev.deadLine := by
  refine foldl_wake_toList _ _ _ ?_
  rw [due_eq_takeWhile, ← dropWhile_due now (deadLines_sorted s.ioWait),
    List.takeWhile_append_dropWhile]

/-- The loop comes to its end, and the waits that are due have been woken then. -/
theorem exists_cancelTimedOut (s : TIoWaitState) (now : TInstant) :
    ∃ fuel, s.cancelTimedOut fuel now = some (s.next now, s.cancelled now) := by
  have hbegin := s.ioWait.begin_eq
  have hdue := s.due_eq_takeWhile now
  rcases hlist : s.ioWait.toList with _ | ⟨ev, rest⟩
  · rw [hlist] at hbegin
    exact ⟨0, by simp [cancelTimedOut, hbegin, cancelled, next, due, hlist]⟩
  · rw [hlist] at hbegin hdue
    by_cases hlate : ev.deadLine ≤ now
    · obtain ⟨n, it, hn⟩ := turns_cancelBody now hlist hlate
      refine ⟨n, ?_⟩
      rw [cancelTimedOut, hbegin, next, hlist]
      simp only [List.head?_cons]
      rw [if_neg (UInt64.not_lt.2 hlate), if_neg (UInt64.not_lt.2 hlate), hn, ← hdue]
      rfl
    · have hnil : s.due now = [] := by simp [hdue, hlate]
      refine ⟨0, ?_⟩
      rw [cancelTimedOut, hbegin, next, hlist, cancelled, hnil]
      simp only [List.head?_cons]
      rw [if_pos (UInt64.not_le.1 hlate), if_pos (UInt64.not_le.1 hlate)]
      rfl

theorem next_eq_now {s : TIoWaitState} {now : TInstant}
    (h : s.due now ≠ [] ∨ s.ioWait.toList = []) : s.next now = now := by
  rw [due_eq_takeWhile] at h
  unfold next
  split
  · rfl
  · next ev rest hlist =>
    rw [hlist] at h
    refine if_neg fun hlt => ?_
    have hnot : ¬ev.deadLine ≤ now := UInt64.not_le.2 hlt
    simp [hnot] at h

theorem next_eq_deadLine {s : TIoWaitState} {now : TInstant} {ev : TContPollEvent}
    {rest : List TContPollEvent} (hlist : s.ioWait.toList = ev :: rest) (h : s.due now = []) :
    s.next now = ev.deadLine := by
  rw [due_eq_takeWhile, hlist] at h
  have hlt : now < ev.deadLine := UInt64.not_le.1 fun hle => by simp [hle] at h
  rw [next, hlist]
  exact if_pos hlt

/-- `CancelTimedOut` wakes what is due, each wait once and in the order of the deadlines, and
nothing else. -/
theorem cancelTimedOut_wakes_due (s : TIoWaitState) (now : TInstant) :
    ∃ fuel next s', s.cancelTimedOut fuel now = some (next, s') ∧ Cancelled s now next s' := by
  obtain ⟨fuel, hcancel⟩ := s.exists_cancelTimedOut now
  refine ⟨fuel, _, _, hcancel, ?_⟩
  have hsub : (s.due now).Sublist s.ioWait.toList := List.filter_sublist
  exact {
    woken := foldl_wake_woken ..
    once := s.ioWait.nodup.sublist hsub
    inOrder := (deadLines_sorted s.ioWait).sublist hsub
    left := s.toList_cancelled now
    status := foldl_wake_status _ _ _
    ready := foldl_wake_ready _ _ _
    executor := foldl_wake_executor ..
    returned_now := next_eq_now
    returned_least := fun hnil hne => by
      -- nothing is taken out, and the first deadline is the least one
      have hkept : (s.cancelled now).ioWait.toList = s.ioWait.toList := by rw [cancelled, hnil]; rfl
      obtain ⟨ev, rest, hlist⟩ := List.exists_cons_of_ne_nil hne
      have hsorted := deadLines_sorted s.ioWait
      rw [hkept, next_eq_deadLine hlist hnil]
      rw [hlist] at hsorted ⊢
      exact ⟨⟨ev, List.mem_cons_self, rfl⟩,
        List.forall_mem_cons.2 ⟨UInt64.le_refl _, (List.pairwise_cons.1 hsorted).1⟩⟩ }

end TIoWaitState

/-! ### The list of waits -/

namespace TIoWait

def queue (t : TIoWait) : TEventWaitQueue where
  ioWait := t.toList
  sorted := t.sorted

theorem queue_unLink (t : TIoWait) (ev : TContPollEvent) :
    queue (t.unLink ev) = (queue t).unLink ev := by
  simp only [queue, TEventWaitQueue.unLink, TRbTree.toList_unLink]

/-- The waits are objects of their own, so that no two of them tie. -/
theorem queue_insert (t : TIoWait) (ev : TContPollEvent)
    (h : ∀ a ∈ ev :: t.toList, ∀ b ∈ ev :: t.toList, a.addr = b.addr → a = b) :
    queue (t.insert ev) = (queue t).register ev := by
  have hinsert := t.toList_insert_perm ev
  have hregister : ((queue t).register ev).ioWait.Perm (ev :: t.toList.erase ev) :=
    List.perm_orderedInsert ..
  have hmem : ∀ a ∈ ev :: t.toList.erase ev, a ∈ ev :: t.toList :=
    List.cons_subset_cons ev List.erase_subset
  have heq : (t.insert ev).toList = ((queue t).register ev).ioWait := by
    refine List.Perm.eq_of_pairwise (fun a b ha hb hab hba => ?_) (t.insert ev).sorted
      ((queue t).register ev).sorted (hinsert.trans hregister.symm)
    refine h a (hmem a (hinsert.mem_iff.1 ha)) b (hmem b (hregister.mem_iff.1 hb)) ?_
    have hab := notAfter_iff.1 hab
    have hba := notAfter_iff.1 hba
    omega
  simp only [queue, heq]

end TIoWait

namespace TContScheduler

theorem foldl_wake_eq (status : Int) (evs : List TContPollEvent) {s : TContScheduler}
    {w : TIoWaitState} (hqueue : s.queue = TIoWait.queue w.ioWait) (he : s.e = w.e) :
    (evs.foldl (wake status) s).queue =
      TIoWait.queue (evs.foldl (TIoWaitState.wake status) w).ioWait ∧
      (evs.foldl (wake status) s).e = (evs.foldl (TIoWaitState.wake status) w).e := by
  induction evs generalizing s w with
  | nil => exact ⟨hqueue, he⟩
  | cons ev evs ih =>
    refine ih ?_ ?_
    · show s.queue.unLink ev = TIoWait.queue (w.ioWait.unLink ev)
      rw [TIoWait.queue_unLink, hqueue]
    · show s.e.scheduleExecution ev.cont = w.e.scheduleExecution ev.cont
      rw [he]

/-- The scheduler does with the list what `CancelTimedOut` does with the tree. -/
theorem cancelTimedOut_eq {s : TContScheduler} {w : TIoWaitState} (now : TInstant)
    (hqueue : s.queue = TIoWait.queue w.ioWait) (he : s.e = w.e) :
    (s.cancelTimedOut now).1 = w.next now ∧
      (s.cancelTimedOut now).2.queue = TIoWait.queue (w.cancelled now).ioWait ∧
      (s.cancelTimedOut now).2.e = (w.cancelled now).e := by
  have hlist : s.queue.ioWait = w.ioWait.toList := by rw [hqueue]; rfl
  have hdue := w.due_eq_takeWhile now
  unfold cancelTimedOut
  rw [hlist, TIoWaitState.next, TIoWaitState.cancelled, hdue]
  split
  · next hnil =>
    rw [hnil]
    exact ⟨rfl, hqueue, he⟩
  · next ev rest hcons =>
    rw [hcons]
    by_cases hlate : ev.deadLine ≤ now
    · have hnot : ¬ev.deadLine > now := UInt64.not_lt.2 hlate
      simp only [if_neg hnot]
      exact ⟨trivial, foldl_wake_eq ETIMEDOUT _ hqueue he⟩
    · have hlt : ev.deadLine > now := UInt64.not_le.1 hlate
      simp only [if_pos hlt, List.takeWhile_cons, hlate]
      exact ⟨trivial, hqueue, he⟩

end TContScheduler

end Balancer
