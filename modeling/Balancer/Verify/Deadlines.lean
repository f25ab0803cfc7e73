import Balancer.Util.Wait

/-!
# Waits that time out

`WaitForIO` takes "no events" for "the first deadline has passed": it cancels the waits up to
`next`, whatever the clock says. `PollD` comes back without events at `next` or later, or at any
moment with an error. So the waits are woken in time exactly if `poll` never fails before the
deadline that it was called with (`timedOut_in_time_iff`).
-/

namespace Balancer

open Runs System

/-- The waits that `CancelTimedOut(now)` wakes. -/
def TEventWaitQueue.expired (q : TEventWaitQueue) (now : TInstant) : List TContPollEvent :=
  q.ioWait.takeWhile fun ev => ev.deadLine ≤ now

/-- No status of the poller is `ETIMEDOUT`. -/
theorem TPollPoller.event_status (fd : Nat) (ev : UInt16) : (event fd ev).status ≠ ETIMEDOUT := by
  unfold event
  simp only
  repeat' split
  all_goals decide

theorem TPollPoller.wait_status {ret : Except Int (List (Nat × UInt16))} :
    ∀ ev ∈ wait ret, ev.status ≠ ETIMEDOUT := by
  intro ev hev
  cases ret with
  | error err => cases hev
  | ok fds =>
    obtain ⟨pfd, -, rfl⟩ := List.mem_map.1 hev
    exact event_status pfd.1 pfd.2

theorem TPollPoller.wait_events (t : TPollFds) : wait (.ok t.fds) ≠ [] := by
  obtain ⟨pfd, hmem, hpfd⟩ := t.ready
  refine List.ne_nil_of_mem (List.mem_map.2 ⟨pfd, List.mem_filter.2 ⟨hmem, ?_⟩, rfl⟩)
  simpa using hpfd

namespace TContScheduler

variable {s s' : TContScheduler}

/-! ### What is woken -/

theorem foldl_wake (status : Int) (evs : List TContPollEvent) (s : TContScheduler) :
    (evs.foldl (wake status) s).now = s.now ∧
      (evs.foldl (wake status) s).woken = s.woken ++ evs.map fun ev => ⟨ev, status, s.now⟩ := by
  induction evs generalizing s with
  | nil => simp
  | cons ev evs ih =>
    obtain ⟨hnow, hwoken⟩ := ih (s.wake status ev)
    refine ⟨hnow, ?_⟩
    rw [List.foldl_cons, hwoken]
    simp [wake]

theorem foldl_onPollEvent (status : Int) (evs : List (IPollEvent TPollOwner)) (s : TContScheduler) :
    ∀ w ∈ (evs.foldl (onPollEvent status) s).woken, w ∈ s.woken ∨ w.status = status := by
  induction evs generalizing s with
  | nil => exact fun w hw => .inl hw
  | cons ev evs ih =>
    intro w hw
    obtain hw | hw := ih (onPollEvent status s ev) w hw
    · unfold onPollEvent at hw
      split at hw
      · obtain hw | hw := List.mem_append.1 hw
        · exact .inl hw
        · exact .inr (List.mem_singleton.1 hw ▸ rfl)
      · exact .inl hw
    · exact .inr hw

theorem foldl_scheduleIoWait (evs : List TContPollEvent) (s : TContScheduler) :
    (evs.foldl scheduleIoWait s).woken = s.woken := by
  induction evs generalizing s with
  | nil => rfl
  | cons ev evs ih => exact ih (s.scheduleIoWait ev)

theorem cancelTimedOut_woken (s : TContScheduler) (now : TInstant) :
    (s.cancelTimedOut now).2.now = s.now ∧
      (s.cancelTimedOut now).2.woken =
        s.woken ++ (s.queue.expired now).map fun ev => ⟨ev, ETIMEDOUT, s.now⟩ := by
  unfold cancelTimedOut TEventWaitQueue.expired
  split
  · next hq => simp [hq]
  · next ev rest hq =>
    split
    · next hlt => simp [hq, UInt64.not_le.2 hlt]
    · exact foldl_wake ETIMEDOUT _ s

/-- `CancelTimedOut(now)` returns `now`, or the first deadline if that is later. -/
theorem cancelTimedOut_next (s : TContScheduler) (now : TInstant) :
    (s.cancelTimedOut now).1 = now ∨
      ∃ ev rest, (s.cancelTimedOut now).2.queue.ioWait = ev :: rest ∧
      ev.deadLine = (s.cancelTimedOut now).1 := by
  unfold cancelTimedOut
  split
  · exact .inl rfl
  · next ev rest hq =>
    split
    · exact .inr ⟨ev, rest, hq, rfl⟩
    · exact .inl rfl

/-! ### What is woken in time -/

/-- Every wait that was woken with `ETIMEDOUT` was woken when the clock had reached its deadline. -/
def WokenInTime (s : TContScheduler) : Prop :=
  ∀ w ∈ s.woken, w.status = ETIMEDOUT → w.event.deadLine ≤ w.time

/-- If `poll` fails, and not with `ETIMEDOUT`, then the clock has reached the deadline that `PollD`
was called with. -/
def PollFailsInTime (s : TContScheduler) (ev : TSchedulerEvent) : Prop :=
  ∀ next err, s.pos = .polling next → ev = .poll (.failed err) → err ≠ ETIMEDOUT → next ≤ s.now

/-- `PollD` was called with a deadline that has passed, or with the first one of the queue; the
statuses that are left to dispatch come from the poller. -/
structure Waits (s : TContScheduler) : Prop where
  next : ∀ next, s.pos = .polling next →
    next ≤ s.now ∨ ∃ ev rest, s.queue.ioWait = ev :: rest ∧ ev.deadLine = next
  status : ∀ events, s.pos = .dispatching events → ∀ ev ∈ events, ev.status ≠ ETIMEDOUT

theorem Waits.of_pos (hpolling : ∀ next, s.pos ≠ .polling next)
    (hdispatching : ∀ events, s.pos ≠ .dispatching events) : s.Waits where
  next next hnext := absurd hnext (hpolling next)
  status events hev := absurd hev (hdispatching events)

theorem WokenInTime.of_woken (h : s.WokenInTime) (hw : s'.woken = s.woken) : s'.WokenInTime := by
  intro w
  rw [hw]
  exact h w

theorem cancelTimedOut_inTime (h : s.WokenInTime) (now : TInstant) :
    (s.cancelTimedOut now).2.WokenInTime ↔ ∀ ev ∈ s.queue.expired now, ev.deadLine ≤ s.now := by
  unfold WokenInTime
  rw [(cancelTimedOut_woken s now).2]
  constructor
  · intro hw ev hev
    exact hw ⟨ev, ETIMEDOUT, s.now⟩ (List.mem_append_right _ (List.mem_map_of_mem hev)) rfl
  · intro hev w hw
    obtain hw | hw := List.mem_append.1 hw
    · exact h w hw
    · obtain ⟨ev, hmem, rfl⟩ := List.mem_map.1 hw
      exact fun _ => hev ev hmem

theorem mem_expired {q : TEventWaitQueue} {now : TInstant} {ev : TContPollEvent}
    (h : ev ∈ q.expired now) : ev.deadLine ≤ now := by
  simpa using List.mem_takeWhile_imp h

/-- The waits up to `next` have timed out exactly if `next` has passed: the first one has `next`
itself. -/
theorem expired_inTime_iff {q : TEventWaitQueue} {next now : TInstant}
    (h : next ≤ now ∨ ∃ ev rest, q.ioWait = ev :: rest ∧ ev.deadLine = next) :
    (∀ ev ∈ q.expired next, ev.deadLine ≤ now) ↔ next ≤ now := by
  constructor
  · intro hev
    obtain h | ⟨ev, rest, hq, rfl⟩ := h
    · exact h
    · apply hev
      rw [TEventWaitQueue.expired, hq, List.takeWhile_cons_of_pos (by simp)]
      exact List.mem_cons_self
  · intro hle ev hev
    exact UInt64.le_trans (mem_expired hev) hle

/-! ### Steps -/

theorem pollD_error {deadLine now : TInstant} {r : TPoll} {err : Int}
    (h : pollD deadLine now r = some (.error err)) :
    deadLine ≤ now ∨ r = .failed err ∧ err ≠ ETIMEDOUT := by
  cases r with
  | events t => cases h
  | timeout =>
    by_cases hlt : now < deadLine
    · simp [pollD, hlt] at h
    · exact .inl (UInt64.not_lt.1 hlt)
  | failed err' =>
    by_cases herr : err' = ETIMEDOUT
    · by_cases hlt : now < deadLine
      · simp [pollD, herr, hlt] at h
      · exact .inl (UInt64.not_lt.1 hlt)
    · simp only [pollD, ne_eq, herr, not_false_eq_true, if_true, Option.some.injEq,
        Except.error.injEq] at h
      exact .inr ⟨h ▸ rfl, h ▸ herr⟩

theorem pollD_failed {deadLine now : TInstant} {err : Int} (h : err ≠ ETIMEDOUT) :
    pollD deadLine now (.failed err) = some (.error err) := by
  simp [pollD, h]

theorem pollD_ok {deadLine now : TInstant} {r : TPoll} {fds : List (Nat × UInt16)}
    (h : pollD deadLine now r = some (.ok fds)) : TPollPoller.wait (.ok fds) ≠ [] := by
  cases r with
  | events t =>
    cases h
    exact TPollPoller.wait_events t
  | timeout =>
    simp only [pollD] at h
    split at h <;> cases h
  | failed err =>
    simp only [pollD] at h
    repeat' split at h
    all_goals cases h

theorem waited_events {events : List TPollerEvent} (h : events ≠ []) (next : TInstant) :
    s.waited next events = { s with pos := .dispatching events } := by
  rw [waited, if_neg (by simpa using h)]

theorem polled_inTime {next : TInstant} {r : TPoll} (hs : s.Waits) (hpos : s.pos = .polling next)
    (hw : s.WokenInTime) :
    (s.polled next r).WokenInTime ↔ ∀ err, r = .failed err → err ≠ ETIMEDOUT → next ≤ s.now := by
  unfold polled
  cases hr : pollD next s.now r with
  | none =>
    refine iff_of_true hw fun err hrerr herr => ?_
    rw [hrerr, pollD_failed herr] at hr
    cases hr
  | some ret =>
    cases ret with
    | ok fds =>
      refine iff_of_true ?_ fun err hrerr herr => ?_
      · simp only [waited_events (pollD_ok hr)]
        exact hw
      · rw [hrerr, pollD_failed herr] at hr
        cases hr
    | error err =>
      have hcancel : (s.waited next []).WokenInTime ↔ next ≤ s.now :=
        (cancelTimedOut_inTime hw next).trans (expired_inTime_iff (hs.next next hpos))
      refine hcancel.trans ⟨fun hle _ _ _ => hle, fun hle => ?_⟩
      obtain hnext | ⟨hrerr, herr⟩ := pollD_error hr
      · exact hnext
      · exact hle err hrerr herr

theorem polled_pos (s : TContScheduler) (next : TInstant) (r : TPoll) :
    s.polled next r = s ∨
      ∃ events, (s.polled next r).pos = .dispatching events ∧ ∀ ev ∈ events,
      ev.status ≠ ETIMEDOUT := by
  unfold polled
  split
  · exact .inl rfl
  · exact .inr ⟨_, rfl, TPollPoller.wait_status⟩

theorem waitForIO_inTime (hw : s.WokenInTime) : s.waitForIO.WokenInTime := by
  unfold waitForIO
  split
  · exact (cancelTimedOut_inTime hw s.now).2 fun ev hev => mem_expired hev
  · split
    · exact hw
    · exact hw

theorem waitForIO_waits : s.waitForIO.Waits := by
  unfold waitForIO
  split
  · refine ⟨fun next hnext => ?_, fun events hev => by cases hev⟩
    cases hnext
    obtain hnow | hfirst := cancelTimedOut_next s s.now
    · left
      show (s.cancelTimedOut s.now).1 ≤ (s.cancelTimedOut s.now).2.now
      rw [hnow, (cancelTimedOut_woken s s.now).1]
      exact UInt64.le_refl _
    · exact .inr hfirst
  · split
    · exact .of_pos (by simp) (by simp)
    · exact .of_pos (by simp) (by simp)

theorem dispatched_inTime {events : List TPollerEvent} (hs : s.Waits)
    (hpos : s.pos = .dispatching events) (hw : s.WokenInTime) :
    (s.dispatched events).WokenInTime := by
  cases events with
  | nil => exact hw
  | cons ev events =>
    intro w hmem hstatus
    obtain hmem | heq := foldl_onPollEvent ev.status _ s w hmem
    · exact hw w hmem hstatus
    · exact absurd (heq.symm.trans hstatus) (hs.status _ hpos ev List.mem_cons_self)

/-- A step of the code of a coroutine or a callback. -/
structure CodeStep (s s' : TContScheduler) : Prop where
  woken : s'.woken = s.woken
  not_polling : ∀ next, s'.pos ≠ .polling next
  dispatching : ∀ events, s'.pos = .dispatching events → s.pos = .dispatching events

theorem CodeStep.of_inCode (h : s.InCode) (hw : s'.woken = s.woken) (hpos : s'.pos = s.pos) :
    CodeStep s s' where
  woken := hw
  not_polling next hnext := by
    rw [hpos] at hnext
    simp [InCode, hnext] at h
  dispatching events hev := hpos ▸ hev

theorem CodeStep.switch (hw : s'.woken = s.woken) (hpos : s'.pos = TSchedulerPos.waitForIO) :
    CodeStep s s' where
  woken := hw
  not_polling next := by simp [hpos]
  dispatching events := by simp [hpos]

theorem executeEvents_codeStep {evs : List TContPollEvent} (h : s.InCode) :
    CodeStep s (s.executeEvents evs) := by
  unfold executeEvents
  split
  · exact .of_inCode h rfl rfl
  · exact .switch (foldl_scheduleIoWait evs s) rfl

/-- What a step is: the clock goes on, code runs, or the loop of `WaitForIO` does. -/
theorem step_cases {ev : TSchedulerEvent} (h : system.step s ev = some s') :
    (∃ now, ev = .tick now ∧ s.now ≤ now ∧ s' = { s with now }) ∨
    ((∀ r, ev ≠ .poll r) ∧ CodeStep s s') ∨
    (ev = TSchedulerEvent.waitForIO ∧ s' = s.waitForIO) ∨
    (∃ next r, ev = .poll r ∧ s.pos = .polling next ∧ s' = s.polled next r) ∨
    (∃ events, ev = .dispatch ∧ s.pos = .dispatching events ∧ s' = s.dispatched events) := by
  have hrunning : s.pos = .running → s.InCode := fun hpos => by simp [InCode, hpos]
  unfold system step at h
  cases ev with
  | tick now =>
    obtain ⟨hle, h⟩ := Option.ite_none_right_eq_some.1 h
    cases h
    exact .inl ⟨now, rfl, hle, rfl⟩
  | wait evs =>
    obtain ⟨⟨hpos, -⟩, h⟩ := Option.ite_none_right_eq_some.1 h
    cases h
    exact .inr (.inl ⟨by simp, executeEvents_codeStep (hrunning hpos)⟩)
  | yield | finish =>
    obtain ⟨-, h⟩ := Option.ite_none_right_eq_some.1 h
    cases h
    exact .inr (.inl ⟨by simp, .switch rfl rfl⟩)
  | destroy ev =>
    obtain ⟨⟨hpos, -⟩, h⟩ := Option.ite_none_right_eq_some.1 h
    cases h
    exact .inr (.inl ⟨by simp, .of_inCode (hrunning hpos) rfl rfl⟩)
  | wake c | cancel c | schedule addr fd what | remove addr fd what =>
    obtain ⟨hin, h⟩ := Option.ite_none_right_eq_some.1 h
    cases h
    exact .inr (.inl ⟨by simp, .of_inCode hin rfl rfl⟩)
  | waitForIO =>
    obtain ⟨-, h⟩ := Option.ite_none_right_eq_some.1 h
    cases h
    exact .inr (.inr (.inl ⟨rfl, rfl⟩))
  | poll r =>
    simp only at h
    split at h
    · next next hpos =>
      obtain ⟨-, h⟩ := Option.ite_none_right_eq_some.1 h
      cases h
      exact .inr (.inr (.inr (.inl ⟨next, r, rfl, hpos, rfl⟩)))
    · cases h
  | dispatch =>
    simp only at h
    split at h
    · next events hpos =>
      cases h
      exact .inr (.inr (.inr (.inr ⟨events, rfl, hpos, rfl⟩)))
    · cases h

theorem step_waits {ev : TSchedulerEvent} (hs : s.Waits) (h : system.step s ev = some s') :
    s'.Waits := by
  obtain ⟨now, rfl, hle, rfl⟩ | ⟨-, hcode⟩ | ⟨rfl, rfl⟩ | ⟨next, r, rfl, hpos, rfl⟩ |
    ⟨events, rfl, hpos, rfl⟩ := step_cases h
  · refine ⟨fun next hnext => ?_, hs.status⟩
    obtain hnow | hfirst := hs.next next hnext
    · exact .inl (UInt64.le_trans hnow hle)
    · exact .inr hfirst
  · exact ⟨fun next hnext => absurd hnext (hcode.not_polling next),
      fun events hev => hs.status events (hcode.dispatching events hev)⟩
  · exact waitForIO_waits
  · obtain heq | ⟨events, hdisp, hstatus⟩ := polled_pos s next r
    · rwa [heq]
    · refine ⟨fun next hnext => ?_, fun events' hev => ?_⟩
      · rw [hdisp] at hnext
        cases hnext
      · rw [hdisp] at hev
        cases hev
        exact hstatus
  · cases events with
    | nil => exact .of_pos (by simp [dispatched]) (by simp [dispatched])
    | cons ev events =>
      refine ⟨by simp [dispatched], fun events' hev => ?_⟩
      cases hev
      exact fun ev' hev' => hs.status _ hpos ev' (List.mem_cons_of_mem _ hev')

/-- One step wakes in time exactly if it is no failure of `poll` before the deadline. -/
theorem step_inTime {ev : TSchedulerEvent} (hs : s.Waits) (hw : s.WokenInTime)
    (h : system.step s ev = some s') : s'.WokenInTime ↔ s.PollFailsInTime ev := by
  have hother : (∀ r, ev ≠ .poll r) → s.PollFailsInTime ev := fun hev next err _ heq =>
    absurd heq (hev (.failed err))
  obtain ⟨now, rfl, hle, rfl⟩ | ⟨hev, hcode⟩ | ⟨rfl, rfl⟩ | ⟨next, r, rfl, hpos, rfl⟩ |
    ⟨events, rfl, hpos, rfl⟩ := step_cases h
  · exact iff_of_true (hw.of_woken rfl) (hother (by simp))
  · exact iff_of_true (hw.of_woken hcode.woken) (hother hev)
  · exact iff_of_true (waitForIO_inTime hw) (hother (by simp))
  · rw [polled_inTime hs hpos hw]
    constructor
    · intro hr next' err hpos' heq
      rw [hpos] at hpos'
      cases hpos'
      exact hr err (TSchedulerEvent.poll.inj heq)
    · intro hr err hrerr
      exact hr next err hpos (hrerr ▸ rfl)
  · exact iff_of_true (dispatched_inTime hs hpos hw) (hother (by simp))

/-- For any coroutines, waits, clock and results of `poll`: the waits that are woken with
`ETIMEDOUT` are woken in time exactly if `poll` never fails before the deadline that it was called
with. -/
theorem timedOut_in_time_iff {es : List TSchedulerEvent} (hpos : s.pos = .running)
    (hwoken : s.woken = []) (hrun : (system.run s es).isSome) :
    system.Always WokenInTime s es ↔ system.EachStep PollFailsInTime s es := by
  have hwaits : s.Waits := .of_pos (by simp [hpos]) (by simp [hpos])
  have hw : s.WokenInTime := fun w hmem => by simp [hwoken] at hmem
  exact always_iff_eachStep hrun (fun s ev s' hI hst => step_waits hI hst)
    (fun s ev s' hI hP hst => step_inTime hI hP hst) hwaits hw

/-- A sleep for ten microseconds, at the end of which `poll` times out. -/
theorem timedOut_in_time_sleep :
    system.Always WokenInTime { e := { current := 0 } }
      [.wait [⟨0, 0, 10, none⟩], TSchedulerEvent.waitForIO, .tick 12, .poll .timeout] := by
  refine (timedOut_in_time_iff rfl rfl (by decide +kernel)).2 fun pre ev s' hpre hrun next err hpos
    heq => ?_
  have hmem := hpre.subset (List.mem_append_right pre (List.mem_singleton.2 rfl))
  simp [heq] at hmem

/-- A signal interrupts `poll` while a coroutine sleeps without a deadline: it is woken at once. -/
theorem timedOut_early_eintr :
    (system.run { e := { current := 0 } }
      [.wait [⟨0, 0, TInstant.Max, none⟩], TSchedulerEvent.waitForIO, .poll (.failed EINTR)]).map
        (·.woken) = some [⟨⟨0, 0, TInstant.Max, none⟩, ETIMEDOUT, 0⟩] := by
  decide +kernel

end TContScheduler

end Balancer
