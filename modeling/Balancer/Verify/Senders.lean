import Balancer.Kernel.Socket
import Balancer.Kernel.Queue

/-!
# Coroutines that wait for a socket or a queue

`Flush` keeps the coroutine that it suspends in the single slot `Wake_`. As long as nobody else goes
to sleep in `Flush` meanwhile, the slot holds whoever sleeps (`senders_remembered_iff`); a second
sleeper overwrites the first, which no callback wakes any more.

Both loops that wait, `Flush` and `Pop`, ignore what the wait returns. A cancelled coroutine does
not wait, so it leaves such a loop only if it could have left it right away
(`cancelled_leaves_iff`).
-/

namespace Balancer

open Runs TSocketState

/-! ### Who is woken -/

namespace TSocketEvent

/-- The coroutine in which an event happens; callbacks run in the scheduler. -/
def coroutine : TSocketEvent → Option Nat
  | .doSend c _ | .flush c | .resume c _ => some c
  | .onPollEvent _ _ => none

/-- The calls from outside, which a sleeping coroutine can not make. -/
def IsCall : TSocketEvent → Prop
  | .doSend _ _ | .flush _ => True
  | _ => False

instance (ev : TSocketEvent) : Decidable ev.IsCall := by
  unfold IsCall; split <;> infer_instance

end TSocketEvent

namespace TSocketState

/-- A call comes from a coroutine that does not sleep. -/
def CanCall (st : TSocketState) (ev : TSocketEvent) : Prop :=
  ev.IsCall → ∀ p ∈ st.sleeping, ev.coroutine ≠ some p.1

instance (st : TSocketState) (ev : TSocketEvent) : Decidable (st.CanCall ev) := by
  unfold CanCall; infer_instance

/-- Coroutines that send over one `TSocketOut`, and its callbacks. -/
def senders : System TSocketState TSocketEvent where
  step st ev := if st.CanCall ev then (st.step ev).map Prod.snd else none

/-- Every coroutine that sleeps in `Flush` is the one in `Wake_`, and the next callback schedules
it. -/
def Remembered (st : TSocketState) : Prop :=
  ∀ p ∈ st.sleeping, st.out.wake = some p.1 ∧
    ∀ status wr st', st.onPollEvent status wr = some st' → st'.ready = st.ready ++ [p.1]

/-- When an event suspends its coroutine, no other coroutine sleeps. -/
def SleepsAlone (st : TSocketState) (ev : TSocketEvent) : Prop :=
  (∃ st', st.step ev = some (.suspended, st')) → ∀ p ∈ st.sleeping, ev.coroutine = some p.1

variable {st st' : TSocketState}

theorem flush_suspended {c keep : Nat} (h : st.flush c keep = (.suspended, st')) :
    st'.sleeping = (c, keep) :: st.sleeping ∧ st'.out.wake = some c := by
  unfold flush at h
  split at h
  · split at h
    · cases h
    · cases h
      exact ⟨rfl, rfl⟩
  · cases h

theorem flush_not_suspended {c keep : Nat} {r : TFlush} (h : st.flush c keep = (r, st'))
    (hr : r ≠ .suspended) : st' = st := by
  unfold flush at h
  split at h
  · split at h
    · cases h
      rfl
    · cases h
      exact absurd rfl hr
  · cases h
    rfl

theorem onPollEvent_slots {status : Int} {wr : TWriteV} (h : st.onPollEvent status wr = some st') :
    st'.sleeping = st.sleeping ∧ st'.out.wake = st.out.wake ∧
      st'.ready = st.ready ++ st.out.wake.toList := by
  unfold onPollEvent at h
  simp only at h
  repeat' split at h
  all_goals cases h
  all_goals exact ⟨rfl, rfl, rfl⟩

theorem remembered_iff : st.Remembered ↔ ∀ p ∈ st.sleeping, st.out.wake = some p.1 := by
  constructor
  · intro h p hp
    exact (h p hp).1
  · intro h p hp
    refine ⟨h p hp, fun status wr st' hst => ?_⟩
    rw [(onPollEvent_slots hst).2.2, h p hp]
    rfl

/-- What a step does to the slot and to the sleepers: a call of `Flush` goes on in the coroutine
`c`, from a state `st₁` in which `c` does not sleep, or it is a callback. -/
theorem senders_step_cases {ev : TSocketEvent} (h : senders.step st ev = some st') :
    (∃ c keep r, ∃ st₁ : TSocketState, st.step ev = some (r, st') ∧ ev.coroutine = some c ∧
      st₁.flush c keep = (r, st') ∧
      ((st₁.sleeping = st.sleeping ∧ st₁.out.wake = st.out.wake ∧ ∀ p ∈ st.sleeping, c ≠ p.1) ∨
        ((c, keep) ∈ st.sleeping ∧ st₁.sleeping = st.sleeping.erase (c, keep)))) ∨
    (∃ status wr, ev = .onPollEvent status wr ∧ st.onPollEvent status wr = some st') := by
  unfold senders at h
  simp only at h
  split at h
  · next hcall =>
    obtain ⟨⟨r, _⟩, hst, rfl⟩ := Option.map_eq_some_iff.1 h
    have hst' := hst
    unfold step at hst
    split at hst
    · next hen =>
      cases ev with
      | doSend c lst =>
        refine .inl ⟨c, _, r, _, hst', rfl, Option.some.inj hst,
          .inl ⟨rfl, rfl, fun p hp heq => ?_⟩⟩
        exact hcall trivial p hp (congrArg some heq)
      | flush c =>
        refine .inl ⟨c, _, r, _, hst', rfl, Option.some.inj hst,
          .inl ⟨rfl, rfl, fun p hp heq => ?_⟩⟩
        exact hcall trivial p hp (congrArg some heq)
      | resume c keep =>
        exact .inl ⟨c, keep, r, _, hst', rfl, Option.some.inj hst, .inr ⟨hen, rfl⟩⟩
      | onPollEvent status wr =>
        obtain ⟨st₁, h₁, heq⟩ := Option.map_eq_some_iff.1 hst
        cases heq
        exact .inr ⟨status, wr, rfl, h₁⟩
    · cases hst
  · cases h

/-- No coroutine sleeps twice. -/
def SleepOnce (st : TSocketState) : Prop := (st.sleeping.map Prod.fst).Nodup

theorem not_mem_erase_of_sleepOnce (hI : st.SleepOnce) {c keep : Nat}
    (hc : (c, keep) ∈ st.sleeping) : ∀ p ∈ st.sleeping.erase (c, keep), c ≠ p.1 := by
  have hnd : st.sleeping.Nodup := hI.of_map _
  rintro ⟨c', keep'⟩ hp rfl
  rw [hnd.mem_erase_iff] at hp
  exact hp.1 (List.inj_on_of_nodup_map hI hp.2 hc rfl)

theorem SleepOnce.step (hI : st.SleepOnce) {ev : TSocketEvent} (h : senders.step st ev = some st') :
    st'.SleepOnce := by
  rcases senders_step_cases h with ⟨c, keep, r, st₁, -, -, hf, hs⟩ | ⟨status, wr, -, hp⟩
  · have h₁ : st₁.SleepOnce ∧ ∀ p ∈ st₁.sleeping, c ≠ p.1 := by
      unfold SleepOnce
      rcases hs with ⟨hsl, -, hne⟩ | ⟨hc, hsl⟩
      · rw [hsl]
        exact ⟨hI, hne⟩
      · rw [hsl]
        exact ⟨hI.sublist (List.erase_sublist.map _), not_mem_erase_of_sleepOnce hI hc⟩
    by_cases hr : r = .suspended
    · subst hr
      unfold SleepOnce
      rw [(flush_suspended hf).1, List.map_cons, List.nodup_cons]
      refine ⟨fun hmem => ?_, h₁.1⟩
      obtain ⟨p, hp, heq⟩ := List.mem_map.1 hmem
      exact h₁.2 p hp heq.symm
    · rw [flush_not_suspended hf hr]
      exact h₁.1
  · unfold SleepOnce
    rw [(onPollEvent_slots hp).1]
    exact hI

/-- One step keeps the sleepers remembered exactly when it leaves its coroutine to sleep alone. -/
theorem remembered_step_iff (hI : st.SleepOnce) (hP : st.Remembered) {ev : TSocketEvent}
    (h : senders.step st ev = some st') : st'.Remembered ↔ st.SleepsAlone ev := by
  rw [remembered_iff] at hP ⊢
  rcases senders_step_cases h with ⟨c, keep, r, st₁, hst, hev, hf, hs⟩ | ⟨status, wr, rfl, hp⟩
  · by_cases hr : r = .suspended
    · subst hr
      obtain ⟨hsl, hw⟩ := flush_suspended hf
      rw [hsl, hw]
      have hrest : (∀ p ∈ st₁.sleeping, c = p.1) ↔ ∀ p ∈ st.sleeping, c = p.1 := by
        rcases hs with ⟨hsl, -, -⟩ | ⟨hc, hsl⟩
        · rw [hsl]
        · have hall : ∀ p ∈ st.sleeping, c = p.1 := by
            intro p hp
            have h₁ := hP p hp
            rw [hP _ hc] at h₁
            exact Option.some.inj h₁
          exact iff_of_true (fun p hp => hall p (List.mem_of_mem_erase (hsl ▸ hp))) hall
      have halone : st.SleepsAlone ev ↔ ∀ p ∈ st.sleeping, c = p.1 := by
        unfold SleepsAlone
        rw [hev]
        constructor
        · intro h p hp
          exact Option.some.inj (h ⟨st', hst⟩ p hp)
        · intro h _ p hp
          exact congrArg some (h p hp)
      rw [halone, ← hrest]
      simp
    · rw [flush_not_suspended hf hr]
      have hst₁ : ∀ p ∈ st₁.sleeping, st₁.out.wake = some p.1 := by
        rcases hs with ⟨hsl, hw, -⟩ | ⟨hc, hsl⟩
        · rw [hsl, hw]
          exact hP
        · -- whoever else sleeps is in the slot too, so it is the coroutine that went on
          intro p hp
          rw [hsl] at hp
          have h₁ := hP p (List.mem_of_mem_erase hp)
          rw [hP _ hc] at h₁
          exact absurd (Option.some.inj h₁) (not_mem_erase_of_sleepOnce hI hc p hp)
      refine iff_of_true hst₁ ?_
      rintro ⟨st₂, hst₂⟩
      rw [hst] at hst₂
      cases hst₂
      exact absurd rfl hr
  · obtain ⟨hsl, hw, -⟩ := onPollEvent_slots hp
    rw [hsl, hw]
    refine iff_of_true hP ?_
    rintro ⟨st₂, hst₂⟩
    unfold step at hst₂
    split at hst₂
    · obtain ⟨_, -, heq⟩ := Option.map_eq_some_iff.1 hst₂
      cases heq
    · cases hst₂

end TSocketState

/-- Any run of senders and callbacks on a fresh `TSocketOut`: everybody who sleeps in `Flush` is
remembered in every state of the run exactly when nobody goes to sleep there while another coroutine
does. -/
theorem senders_remembered_iff (maxInQueue : Nat) (evs : List TSocketEvent)
    (hrun : (senders.run (.init maxInQueue) evs).isSome) :
    senders.Always TSocketState.Remembered (.init maxInQueue) evs ↔
      senders.EachStep TSocketState.SleepsAlone (.init maxInQueue) evs := by
  refine System.always_iff_eachStep (I := TSocketState.SleepOnce) hrun ?_ ?_ List.nodup_nil ?_
  · intro st ev st' hI h
    exact hI.step h
  · intro st ev st' hI hP h
    exact remembered_step_iff hI hP h
  · intro p hp
    cases hp

/-- Two senders that sleep one after the other. -/
theorem senders_remembered_in_turn :
    senders.Always TSocketState.Remembered (.init 2)
      [.doSend 0 [[1, 2, 3]], .onPollEvent 0 (.written 3), .resume 0 2, .doSend 1 [[4, 5, 6]]] := by
  refine (senders_remembered_iff 2 _ rfl).2 ?_
  refine (System.eachStep_cons rfl).2
    ⟨?_, (System.eachStep_cons rfl).2 ⟨?_, (System.eachStep_cons rfl).2
    ⟨?_, (System.eachStep_cons rfl).2 ⟨?_, System.eachStep_nil⟩⟩⟩⟩
  · rintro - p hp
    cases hp
  · rintro ⟨st, hst⟩
    cases hst
  · rintro ⟨st, hst⟩
    cases hst
  · rintro - p hp
    cases hp

/-- The second of two senders goes to sleep before the first one was woken. The callback that
empties the queue wakes the second one only; the first one sleeps on, in no slot and with no
callback to come. -/
theorem senders_forgotten :
    ¬senders.Always TSocketState.Remembered (.init 2)
      [.doSend 0 [[1, 2, 3]], .doSend 1 [[4]], .onPollEvent 0 (.written 4), .resume 1 2] ∧
    ∃ st, senders.run (.init 2)
        [.doSend 0 [[1, 2, 3]], .doSend 1 [[4]], .onPollEvent 0 (.written 4), .resume 1 2] =
          some st ∧
      st.sleeping = [(0, 2)] ∧ st.out.wake = none ∧ st.ready = [1] ∧ st.scheduled = false := by
  constructor
  · intro h
    have h₁ := h.last rfl (0, 2) (by decide)
    cases h₁.1
  · exact ⟨_, rfl, rfl, rfl, rfl, rfl⟩

/-! ### Who leaves a loop -/

namespace TSocketOut

/-- A coroutine that has not been cancelled does what `TSocketState.flush` says. -/
theorem flushTurn_flush {e : TContExecutor} (he : e.current ∉ e.cancelled) (keep : Nat)
    (st : TSocketState) :
    (st.flush e.current keep).1 = .returned ∧
      flushTurn keep (e, st.out) = .exit (.ok ()) (e, st.out) ∨
    (∃ ex, (st.flush e.current keep).1 = .threw ex ∧
      flushTurn keep (e, st.out) = .exit (.error ex) (e, st.out)) ∨
    (∃ e', (st.flush e.current keep).1 = .suspended ∧
      flushTurn keep (e, st.out) = .switch (e', (st.flush e.current keep).2.out)) := by
  rcases Nat.lt_or_ge keep st.out.w.fullLength with hw | hw
  · by_cases herr : st.out.err = 0
    · obtain ⟨e', ht⟩ := flushTurn_switched hw herr he
      refine .inr (.inr ⟨e', ?_, ?_⟩)
      · simp [TSocketState.flush, hw, herr]
      · rw [ht]
        simp [TSocketState.flush, hw, herr]
    · refine .inr (.inl ⟨_, ?_, flushTurn_threw hw herr⟩)
      simp [TSocketState.flush, hw, herr]
  · refine .inl ⟨?_, flushTurn_returned hw⟩
    simp [TSocketState.flush, Nat.not_lt.2 hw]

variable {e : TContExecutor}

theorem flush_leaves_iff (hc : e.current ∈ e.cancelled) (keep : Nat) (out : TSocketOut) :
    Leaves (flushTurn keep) (e, out) ↔ out.w.fullLength ≤ keep ∨ out.err ≠ 0 := by
  rcases Nat.lt_or_ge keep out.w.fullLength with hw | hw
  · by_cases herr : out.err = 0
    · -- the turn only clears the slot, and the next one finds the same queue
      have hstuck : ¬Leaves (flushTurn keep) (e, { out with wake := none }) :=
        not_leaves_of_stuck (flushTurn_cancelled hw herr hc)
      rw [leaves_again (flushTurn_cancelled hw herr hc)]
      refine iff_of_false hstuck ?_
      rintro (h | h)
      · exact Nat.not_lt.2 h hw
      · exact h herr
    · exact iff_of_true (leaves_of_exit (flushTurn_threw hw herr)) (.inr herr)
  · exact iff_of_true (leaves_of_exit (flushTurn_returned hw)) (.inl hw)

end TSocketOut

namespace TChunkQueue

variable {e : TContExecutor}

theorem pop_leaves_iff (hc : e.current ∈ e.cancelled) (q : TChunkQueue) :
    Leaves popTurn (e, q) ↔ q.chunks ≠ [] ∨ q.allDone = true := by
  by_cases hq : q.chunks = []
  · cases hd : q.allDone with
    | true => exact iff_of_true (leaves_of_exit (popTurn_done hq hd)) (.inr rfl)
    | false =>
      have hstuck : ¬Leaves popTurn (e, { q with event := .waited }) :=
        not_leaves_of_stuck (popTurn_cancelled hq hd hc)
      rw [leaves_again (popTurn_cancelled hq hd hc)]
      refine iff_of_false hstuck ?_
      rintro (h | h)
      · exact h hq
      · cases h
  · exact iff_of_true (leaves_of_exit (popTurn_popped hq)) (.inl hq)

end TChunkQueue

/-- A cancelled coroutine, wherever it stands in the loop of `Flush` or of `Pop`: it leaves the loop
by itself exactly when the loop had nothing to wait for. -/
theorem cancelled_leaves_iff (e : TContExecutor) (hc : e.current ∈ e.cancelled) (pos : Position) :
    (∀ (keep : Nat) (out : TSocketOut), Leaves (TSocketOut.flushTurn keep) (e, out.atHead pos) ↔
      out.w.fullLength ≤ keep ∨ out.err ≠ 0) ∧
    ∀ q : TChunkQueue, Leaves TChunkQueue.popTurn (e, q.atHead pos) ↔ q.chunks ≠ [] ∨
      q.allDone = true := by
  constructor
  · intro keep out
    rw [TSocketOut.flush_leaves_iff hc]
    cases pos <;> rfl
  · intro q
    rw [TChunkQueue.pop_leaves_iff hc]
    cases pos <;> rfl

/-- The coroutine 1 sleeps when the coroutine 0 aborts the executor. -/
def aborted : TContExecutor := ({ current := 0, waitQueue := [1] } : TContExecutor).abort

/-- A reset connection, and a stream whose peer has finished. -/
theorem cancelled_leaves_error :
    ∃ e, aborted.activate = some e ∧ e.current = 1 ∧
      Leaves (TSocketOut.flushTurn 0)
        (e, { w := [[7]], wake := none, maxInQueue := 0, err := 104 }) ∧
      Leaves TChunkQueue.popTurn (e, { allDone := true, event := .waited }) :=
  ⟨{ current := 1, cancelled := [1] }, by decide, rfl,
    ((cancelled_leaves_iff { current := 1, cancelled := [1] } (by decide) .waiting).1 0
      { w := [[7]], maxInQueue := 0, err := 104 }).2 (.inr (by decide)),
    ((cancelled_leaves_iff { current := 1, cancelled := [1] } (by decide) .waiting).2
      { allDone := true }).2 (.inr rfl)⟩

/-- One byte that the socket has not taken, and a queue that is neither filled nor stopped: the
cancelled coroutine turns in its loop for ever and never switches to the scheduler. -/
theorem cancelled_spins :
    ∃ e, aborted.activate = some e ∧ e.current = 1 ∧
      (∀ n, turns (TSocketOut.flushTurn 0) n (e, { w := [[7]], maxInQueue := 0 }) =
        .again (e, { w := [[7]], maxInQueue := 0 })) ∧
      ∀ n, turns TChunkQueue.popTurn n (e, {}) = .again (e, {}) :=
  ⟨{ current := 1, cancelled := [1] }, by decide, rfl, turns_of_stuck (by rfl),
    turns_of_stuck (by rfl)⟩

end Balancer
