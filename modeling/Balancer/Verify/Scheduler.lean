import Balancer.Util.Wait

/-!
# No wait is forgotten

Waking a wait takes it out of the queue and makes its coroutine ready, and what else takes waits out
of the queue is done by their own coroutine. So one that has switched away in a wait can be found
until it runs (`wait_not_forgotten`).
-/

namespace Balancer

open Runs TContScheduler TContExecutor

namespace TContScheduler

variable {s s' : TContScheduler} {c : Nat}

def Runs (c : Nat) (s : TContScheduler) : Prop := s.pos = .running ∧ s.e.current = c

/-- The coroutine is ready, or one of its waits is in the queue. -/
def Pending (c : Nat) (s : TContScheduler) : Prop :=
  c ∈ s.e.ready ∨ ∃ ev ∈ s.queue.ioWait, ev.cont = c

theorem mem_scheduleExecution {e : TContExecutor} {d : Nat} :
    c ∈ (e.scheduleExecution d).ready ↔ c ∈ e.ready ∨ c = d := by
  by_cases h : c = d
  · simp [scheduleExecution, h]
  · simp [scheduleExecution, h, List.mem_erase_of_ne h]

theorem Pending.wake (h : Pending c s) (status : Int) (ev : TContPollEvent) :
    Pending c (s.wake status ev) := by
  rcases h with h | ⟨ev', hev, rfl⟩
  · exact .inl (mem_scheduleExecution.2 (.inl h))
  · by_cases heq : ev' = ev
    · exact .inl (mem_scheduleExecution.2 (.inr (by rw [heq])))
    · exact .inr ⟨ev', (List.mem_erase_of_ne heq).2 hev, rfl⟩

theorem Pending.cancelTimedOut (h : Pending c s) (now : TInstant) :
    Pending c (s.cancelTimedOut now).2 := by
  unfold TContScheduler.cancelTimedOut
  split
  · exact h
  · split
    · exact h
    · exact List.foldlRecOn _ _ h fun _ h ev _ => h.wake _ ev

theorem mem_foldl_scheduleIoWait {ev : TContPollEvent} {evs : List TContPollEvent} :
    ev ∈ (evs.foldl scheduleIoWait s).queue.ioWait ↔ ev ∈ evs ∨ ev ∈ s.queue.ioWait := by
  induction evs generalizing s with
  | nil => simp
  | cons ev' evs ih =>
    -- `Insert` takes out only the event that it puts in
    have hinsert : ev ∈ (s.scheduleIoWait ev').queue.ioWait ↔ ev = ev' ∨ ev ∈ s.queue.ioWait := by
      by_cases heq : ev = ev'
      · simp [scheduleIoWait, TEventWaitQueue.register, heq]
      · simp [scheduleIoWait, TEventWaitQueue.register, TEventWaitQueue.unLink, heq,
          List.mem_erase_of_ne heq]
    rw [List.foldl_cons, ih, hinsert, List.mem_cons]
    tauto

theorem executeEvents_switched (hc : s.e.current ∉ s.e.cancelled) (evs : List TContPollEvent) :
    s.executeEvents evs = { evs.foldl scheduleIoWait s with
      e := { s.e with
        waitQueue := s.e.current :: s.e.waitQueue, ready := s.e.ready.erase s.e.current }
      pos := TSchedulerPos.waitForIO } := by
  rw [executeEvents, executeEvent_switched hc]

theorem Pending.executeEvents (h : Pending c s) (hc : s.e.current ≠ c) (evs : List TContPollEvent) :
    Pending c (s.executeEvents evs) := by
  by_cases hcancelled : s.e.current ∈ s.e.cancelled
  · rwa [TContScheduler.executeEvents, TContExecutor.executeEvent_cancelled hcancelled]
  · rw [executeEvents_switched hcancelled]
    exact h.imp (List.mem_erase_of_ne hc.symm).2 fun ⟨ev, hev, hcont⟩ =>
      ⟨ev, mem_foldl_scheduleIoWait.2 (.inr hev), hcont⟩

/-- The head of `WaitForIO` makes the coroutine run, or leaves it pending. -/
theorem Pending.waitForIO (h : Pending c s) :
    Runs c s.waitForIO ∨ Pending c s.waitForIO ∧ s.waitForIO.pos ≠ .stopped := by
  unfold TContScheduler.waitForIO
  split
  · exact .inr ⟨h.cancelTimedOut s.now, by simp⟩
  · next hidle =>
    cases hready : s.e.ready with
    | nil =>
      -- with an empty queue too nothing would be pending
      rcases h with h | ⟨ev, hev, -⟩
      · simp [hready] at h
      · exact absurd ⟨hready, List.ne_nil_of_mem hev⟩ hidle
    | cons d ready =>
      simp only [activate, hready]
      by_cases hd : d = c
      · exact .inl ⟨rfl, hd⟩
      · refine .inr ⟨h.imp_left fun h => ?_, by simp⟩
        rw [hready] at h
        exact (List.mem_cons.1 h).resolve_left (Ne.symm hd)

theorem Pending.polled (h : Pending c s) (next : TInstant) (r : TPoll) :
    Pending c (s.polled next r) := by
  unfold TContScheduler.polled waited
  split
  · exact h
  · split
    · exact h.cancelTimedOut next
    · exact h

theorem Pending.dispatched (h : Pending c s) (events : List TPollerEvent) :
    Pending c (s.dispatched events) := by
  cases events with
  | nil => exact h
  | cons ev events =>
    refine List.foldlRecOn (motive := Pending c) _ (onPollEvent ev.status) h fun s h ev' _ => ?_
    unfold onPollEvent
    split
    · exact h.wake ..
    · exact h

/-- A step that the coroutine does not make itself lets it run or leaves it pending. -/
theorem Pending.step (h : Pending c s) (hpos : s.pos ≠ .stopped) (hc : ¬Runs c s)
    {e : TSchedulerEvent} (hs : s.step e = some s') :
    Runs c s' ∨ Pending c s' ∧ s'.pos ≠ .stopped := by
  have hne : s.pos = .running → s.e.current ≠ c := fun hrunning heq => hc ⟨hrunning, heq⟩
  cases e <;> simp only [TContScheduler.step, Option.ite_none_right_eq_some, Option.some.injEq]
    at hs
  case wait evs =>
    obtain ⟨⟨hrunning, -⟩, rfl⟩ := hs
    refine .inr ⟨h.executeEvents (hne hrunning) evs, ?_⟩
    unfold TContScheduler.executeEvents
    split
    · exact hpos
    · simp
  case yield =>
    obtain ⟨-, rfl⟩ := hs
    exact .inr ⟨h.imp_left fun h => mem_scheduleExecution.2 (.inl h), by simp⟩
  case wake d =>
    obtain ⟨-, rfl⟩ := hs
    exact .inr ⟨h.imp_left fun h => mem_scheduleExecution.2 (.inl h), hpos⟩
  case destroy ev =>
    obtain ⟨⟨hrunning, hcont⟩, rfl⟩ := hs
    refine .inr ⟨h.imp_right fun ⟨ev', hev, hcont'⟩ =>
      ⟨ev', (List.mem_erase_of_ne ?_).2 hev, hcont'⟩, hpos⟩
    rintro rfl
    exact hne hrunning (hcont.symm.trans hcont')
  case cancel d =>
    obtain ⟨-, rfl⟩ := hs
    refine .inr ⟨h.imp_left fun h => ?_, hpos⟩
    rcases (s.e.cancel_cases d).2.2 with hready | hready
    · rwa [hready]
    · rw [hready]
      exact mem_scheduleExecution.2 (.inl h)
  case finish =>
    obtain ⟨-, rfl⟩ := hs
    exact .inr ⟨h, by simp⟩
  case waitForIO =>
    obtain ⟨-, rfl⟩ := hs
    exact h.waitForIO
  case poll r =>
    split at hs
    · obtain ⟨-, hs⟩ := Option.ite_none_right_eq_some.1 hs
      cases hs
      refine .inr ⟨h.polled .., ?_⟩
      unfold TContScheduler.polled
      split
      · exact hpos
      · simp [waited]
    · cases hs
  case dispatch =>
    split at hs
    · next events _ =>
      cases hs
      exact .inr ⟨h.dispatched _, by cases events <;> simp [TContScheduler.dispatched]⟩
    · cases hs
  all_goals
    obtain ⟨-, rfl⟩ := hs
    exact .inr ⟨h, hpos⟩

/-- A coroutine that has switched away in a wait is ready or has a wait in the queue as long as it
does not run, and the scheduler goes on. -/
theorem wait_not_forgotten (evs : List TContPollEvent) (es : List TSchedulerEvent)
    (hc : s.e.current ∉ s.e.cancelled) (hrun : system.run s (.wait evs :: es) = some s')
    (hnot : system.Always (fun s₁ => ¬Runs s.e.current s₁) (s.executeEvents evs) es) :
    (s.e.current ∈ s'.e.ready ∨ ∃ ev ∈ s'.queue.ioWait, ev.cont = s.e.current) ∧
      s'.pos ≠ .stopped := by
  obtain ⟨s₁, hs₁, hrun⟩ := Option.bind_eq_some_iff.1 hrun
  obtain ⟨⟨-, hne, hcont⟩, hs₁⟩ := Option.ite_none_right_eq_some.1 hs₁
  cases hs₁
  have hstart : Pending s.e.current (s.executeEvents evs) ∧
      (s.executeEvents evs).pos ≠ .stopped := by
    obtain ⟨ev, hev⟩ := List.exists_mem_of_ne_nil evs hne
    rw [executeEvents_switched hc]
    exact ⟨.inr ⟨ev, mem_foldl_scheduleIoWait.2 (.inl hev), hcont ev hev⟩, by simp⟩
  have hinv :=
    hnot.invariant (I := fun s₁ => ¬Runs s.e.current s₁ ∧ Pending s.e.current s₁ ∧
      s₁.pos ≠ .stopped)
    (by rw [hrun]; rfl) (fun s₁ e s₂ h hnot hs =>
      ⟨hnot, (h.2.1.step h.2.2 h.1 hs).resolve_left hnot⟩)
    ⟨hnot.head, hstart⟩
  exact (hinv.last hrun).2

theorem wait_not_forgotten_two : ∃ s', system.run { e := { current := 1, ready := [2] } }
    [.wait [⟨0, 1, 10, none⟩], TSchedulerEvent.waitForIO] = some s' ∧
      (1 ∈ s'.e.ready ∨ ∃ ev ∈ s'.queue.ioWait, ev.cont = 1) ∧ s'.pos ≠ .stopped := by
  refine ⟨_, rfl, wait_not_forgotten (s := { e := { current := 1, ready := [2] } })
    [⟨0, 1, 10, none⟩] [ TSchedulerEvent.waitForIO] (by decide) rfl ?_⟩
  refine (System.always_cons rfl).2 ⟨?_, System.always_nil.2 ?_⟩
  · exact fun h => absurd h.1 (by decide)
  · exact fun h => absurd h.2 (by decide)

end TContScheduler

end Balancer
