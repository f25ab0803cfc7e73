import Balancer.Kernel.Queue

/-!
# A queue with one consumer

Any coroutines push into a `TChunkQueue` and stop it, and one coroutine pops. The events are the
stretches that run without a switch; between them the scheduler may run any coroutine that is ready,
and a coroutine may become ready for any other reason as well, the consumer included. `pushed`,
`popped` and `stopped` are logs of the calls.

While the consumer waits, it is ready or nothing has been signalled since it checked the queue
(`TQueueState.Synced`), so no signal is lost, whenever it comes.
-/

namespace Balancer

open Runs TChunkQueue TContExecutor

/-- `running` tells whether `e.current` runs or the scheduler; `pos` is where the consumer stands
inside of `Pop`. -/
structure TQueueState where
  e : TContExecutor
  running : Bool
  q : TChunkQueue := {}
  pos : Option Position := none
  pushed : TChunkList := []
  popped : TChunkList := []
  stopped : Bool := false
  deriving DecidableEq

/-- The running coroutine pushes, stops the queue, waits for something else or ends; the consumer
calls `Pop` or makes a turn of its loop; a coroutine becomes ready, or the scheduler goes on with
the first one. -/
inductive TQueueEvent where
  | push (lst : TChunkList)
  | stop
  | wait
  | finish
  | pop
  | turn
  | wake (c : Nat)
  | activate
  deriving DecidableEq

namespace TQueueState

variable (k : Nat)

/-- A coroutine runs, and it is not the consumer inside of `Pop`. -/
def Free (st : TQueueState) : Prop := st.running = true ∧ ¬(st.e.current = k ∧ st.pos ≠ none)

/-- The consumer runs, at `pos`. -/
def Consumes (st : TQueueState) (pos : Option Position) : Prop :=
  st.running = true ∧ st.e.current = k ∧ st.pos = pos

instance (st : TQueueState) : Decidable (st.Free k) := by unfold Free; infer_instance
instance (st : TQueueState) (pos : Option Position) : Decidable (st.Consumes k pos) := by
  unfold Consumes; infer_instance

/-- The rest of a turn of `Pop`. -/
def turned (st : TQueueState) : Turn (Option TChunkList) (TContExecutor × TChunkQueue) → TQueueState
  | .exit r (e, q) => { st with e, q, pos := none, popped := st.popped ++ r.getD [] }
  | .again (e, q) => { st with e, q }
  | .switch (e, q) => { st with e, q, pos := some .waiting, running := false }

/-- The scheduler has switched to `e.current`. -/
def activated (st : TQueueState) (e : TContExecutor) : TQueueState :=
  if e.current = k ∧ st.pos = some .waiting then
    { st with e, running := true, q := st.q.atHead .waiting, pos := some .head }
  else { st with e, running := true }

def system : System TQueueState TQueueEvent where
  step st
    | .push lst =>
      let (q, e) := st.q.push lst st.e
      if st.Free k then some { st with q, e, pushed := st.pushed ++ lst } else none
    | .stop =>
      let (q, e) := st.q.stop st.e
      if st.Free k then some { st with q, e, stopped := true } else none
    | .wait =>
      if st.Free k then
        match st.e.executeEvent with
        | .returned _ => some st
        | .switched e => some { st with e, running := false }
      else none
    | .finish => if st.Free k then some { st with running := false } else none
    | .pop => if st.Consumes k none then some { st with pos := some .head } else none
    | .turn =>
      if st.Consumes k (some .head) then some (st.turned (popTurn (st.e, st.q))) else none
    | .wake c => some { st with e := st.e.scheduleExecution c }
    | .activate => if st.running then none else st.e.activate.map (st.activated k)

/-! ### The invariant -/

/-- While the consumer waits, its event is the one that is signalled; it is ready, or there was no
signal yet and still nothing to pop. -/
structure Waits (st : TQueueState) : Prop where
  ev : st.q.event.ev = some k
  suspended : ¬(st.running = true ∧ st.e.current = k)
  ready : k ∈ st.e.ready ∨ st.q.chunks = [] ∧ st.q.allDone = false

structure Synced (st : TQueueState) : Prop where
  log : st.pushed = st.popped ++ st.q.chunks
  stopped : st.stopped = st.q.allDone
  cancelled : st.e.cancelled = []
  waits : st.pos = some .waiting → st.Waits k

variable {k} {st st' : TQueueState}

theorem mem_scheduleExecution {e : TContExecutor} (c : Nat) (h : k ∈ e.ready) :
    k ∈ (e.scheduleExecution c).ready := by
  unfold scheduleExecution
  by_cases hc : k = c
  · simp [hc]
  · exact List.mem_append_left _ ((List.mem_erase_of_ne hc).2 h)

/-- A signal reaches a consumer that waits. -/
theorem Waits.signal (H : st.Waits k) :
    st.q.event.signal st.e = ({ st.q.event with s := true }, st.e.scheduleExecution k) := by
  simp [TMyEvent.signal, H.ev]

theorem signal_cancelled (m : TMyEvent) (e : TContExecutor) :
    (m.signal e).2.cancelled = e.cancelled := by
  cases h : m.ev <;> simp [TMyEvent.signal, h, scheduleExecution]

theorem signal_current (m : TMyEvent) (e : TContExecutor) : (m.signal e).2.current = e.current := by
  cases h : m.ev <;> simp [TMyEvent.signal, h, scheduleExecution]

/-- After a signal the consumer is ready, whatever is in the queue now. -/
theorem Waits.signalled (H : st.Waits k) (q : TChunkQueue)
    (hq : q.event = (st.q.event.signal st.e).1) :
    ({ st with q, e := (st.q.event.signal st.e).2 } : TQueueState).Waits k := by
  refine ⟨?_, ?_, .inl ?_⟩
  · rw [hq, H.signal]
    exact H.ev
  · simp only [signal_current]
    exact H.suspended
  · rw [H.signal]
    simp [scheduleExecution]

theorem Synced.push (H : st.Synced k) (lst : TChunkList) :
    ({ st with q := (st.q.push lst st.e).1, e := (st.q.push lst st.e).2,
               pushed := st.pushed ++ lst } : TQueueState).Synced k where
  log := by simp [TChunkQueue.push, H.log]
  stopped := H.stopped
  cancelled := (signal_cancelled _ _).trans H.cancelled
  waits h := by
    obtain ⟨h1, h2, h3⟩ := (H.waits h).signalled (st.q.push lst st.e).1 rfl
    exact ⟨h1, h2, h3⟩

theorem Synced.stop (H : st.Synced k) :
    ({ st with q := (st.q.stop st.e).1, e := (st.q.stop st.e).2, stopped := true } :
      TQueueState).Synced k where
  log := H.log
  stopped := rfl
  cancelled := (signal_cancelled _ _).trans H.cancelled
  waits h := by
    obtain ⟨h1, h2, h3⟩ := (H.waits h).signalled (st.q.stop st.e).1 rfl
    exact ⟨h1, h2, h3⟩

/-- A turn of `Pop`: it pops everything, it returns `false`, it goes on, or the consumer starts to
wait. -/
theorem Synced.turn (H : st.Synced k) (hc : st.Consumes k (some .head)) :
    (st.turned (popTurn (st.e, st.q))).Synced k := by
  obtain ⟨hrun, hcur, hpos⟩ := hc
  by_cases hq : st.q.chunks = []
  · cases hd : st.q.allDone with
    | true =>
      rw [popTurn_done hq hd]
      exact ⟨by simpa [turned] using H.log, H.stopped, H.cancelled, fun h => by cases h⟩
    | false =>
      cases hs : st.q.event.s with
      | true =>
        have ht : popTurn (st.e, st.q) = .again (st.e, { st.q with event := .waited }) := by
          simp [popTurn, hq, hd, TMyEvent.wait_signalled hs]
        rw [ht]
        refine ⟨H.log, H.stopped, H.cancelled, fun h => ?_⟩
        rw [turned, hpos] at h
        cases h
      | false =>
        have hex := executeEvent_switched (e := st.e) (by simp [H.cancelled])
        have ht : popTurn (st.e, st.q) =
            .switch ({ st.e with
              waitQueue := st.e.current :: st.e.waitQueue, ready := st.e.ready.erase st.e.current },
              { st.q with event := { st.q.event with ev := some st.e.current } }) := by
          simp [popTurn, hq, hd, TMyEvent.wait, hs, hex]
        rw [ht]
        exact ⟨H.log, H.stopped, H.cancelled,
          fun _ => ⟨congrArg some hcur, by simp [turned], .inr ⟨hq, hd⟩⟩⟩
  · rw [popTurn_popped hq]
    exact ⟨by simpa [turned] using H.log, H.stopped, H.cancelled, fun h => by cases h⟩

theorem Synced.wait (H : st.Synced k) (hf : st.Free k) {e : TContExecutor}
    (he : st.e.executeEvent = .switched e) :
    ({ st with e, running := false } : TQueueState).Synced k := by
  rw [executeEvent_switched (by simp [H.cancelled])] at he
  cases he
  refine ⟨H.log, H.stopped, H.cancelled, fun h => ?_⟩
  have hw := H.waits h
  refine ⟨hw.ev, by simp, hw.ready.imp_left fun hk => ?_⟩
  -- the coroutine that starts to wait is not the consumer
  have hne : k ≠ st.e.current := fun heq => hw.suspended ⟨hf.1, heq.symm⟩
  exact (List.mem_erase_of_ne hne).2 hk

theorem Synced.activate (H : st.Synced k) {e : TContExecutor} (he : st.e.activate = some e) :
    (st.activated k e).Synced k := by
  unfold TContExecutor.activate at he
  split at he
  · cases he
  · next c ready hready =>
    cases he
    unfold activated
    split
    · exact ⟨H.log, H.stopped, H.cancelled, fun h => by cases h⟩
    · next hne =>
      refine ⟨H.log, H.stopped, H.cancelled, fun h => ?_⟩
      have hw := H.waits h
      have hc : c ≠ k := fun hc => hne ⟨hc, h⟩
      refine ⟨hw.ev, fun hr => hc hr.2, hw.ready.imp_left fun hk => ?_⟩
      rw [hready, List.mem_cons] at hk
      exact hk.resolve_left fun heq => hc heq.symm

theorem Synced.step (H : st.Synced k) {ev : TQueueEvent} (h : (system k).step st ev = some st') :
    st'.Synced k := by
  cases ev with
  | push lst =>
    obtain ⟨-, h⟩ := Option.ite_none_right_eq_some.1 h
    cases h
    exact H.push lst
  | stop =>
    obtain ⟨-, h⟩ := Option.ite_none_right_eq_some.1 h
    cases h
    exact H.stop
  | wait =>
    obtain ⟨hf, h⟩ := Option.ite_none_right_eq_some.1 h
    split at h
    · cases h
      exact H
    · next he =>
      cases h
      exact H.wait hf he
  | finish =>
    obtain ⟨-, h⟩ := Option.ite_none_right_eq_some.1 h
    cases h
    exact ⟨H.log, H.stopped, H.cancelled, fun h => ⟨(H.waits h).ev, by simp, (H.waits h).ready⟩⟩
  | pop =>
    obtain ⟨-, h⟩ := Option.ite_none_right_eq_some.1 h
    cases h
    exact ⟨H.log, H.stopped, H.cancelled, fun h => by cases h⟩
  | turn =>
    obtain ⟨hc, h⟩ := Option.ite_none_right_eq_some.1 h
    cases h
    exact H.turn hc
  | wake c =>
    cases h
    refine ⟨H.log, H.stopped, H.cancelled, fun h => ?_⟩
    have hw := H.waits h
    exact ⟨hw.ev, hw.suspended, hw.ready.imp_left (mem_scheduleExecution c)⟩
  | activate =>
    obtain ⟨-, h⟩ := Option.ite_none_left_eq_some.1 h
    obtain ⟨e, he, rfl⟩ := Option.map_eq_some_iff.1 h
    exact H.activate he

end TQueueState

/-! ### Runs -/

open TQueueState

/-- Nothing is lost, repeated or reordered: what was pushed is what was popped, followed by what is
in the queue. -/
def TQueueState.InOrder (st : TQueueState) : Prop :=
  st.popped.flatten <+: st.pushed.flatten ∧ st.pushed = st.popped ++ st.q.chunks

/-- A consumer that waits while there is something to return is ready. -/
def TQueueState.WokenUp (k : Nat) (st : TQueueState) : Prop :=
  st.pos = some .waiting → st.q.chunks ≠ [] ∨ st.q.allDone = true → k ∈ st.e.ready

/-- In any run without cancellation: the popped bytes are a prefix of the pushed ones, a consumer
that waits with something to return is ready, and `Pop` returns `false` only when the queue was
stopped and all chunks that were pushed have been popped. -/
theorem queue_delivers (k : Nat) (e : TContExecutor) (running : Bool) (he : e.cancelled = [])
    (es : List TQueueEvent) (hrun : ((system k).run { e, running } es).isSome) :
    (system k).Always (fun st => st.InOrder ∧ st.WokenUp k) { e, running } es ∧
    (system k).EachStep (fun st ev => ev = .turn → ∀ x, popTurn (st.e, st.q) = .exit none x →
      st.stopped = true ∧ st.popped = st.pushed) { e, running } es := by
  have hI : (system k).Always (Synced k) { e, running } es :=
    System.always_of_invariant hrun (fun _ _ _ H h => H.step h) ⟨rfl, rfl, he, fun h => by cases h⟩
  constructor
  · intro pre st hpre hst
    have H := hI pre st hpre hst
    refine ⟨⟨?_, H.log⟩, fun hpos hq => (H.waits hpos).ready.resolve_right fun hn => ?_⟩
    · rw [H.log, List.flatten_append]
      exact List.prefix_append _ _
    · rcases hq with hq | hq
      · exact hq hn.1
      · rw [hn.2] at hq
        cases hq
  · refine hI.eachStep hrun fun st ev st' H _ _ x hx => ?_
    unfold popTurn at hx
    simp only at hx
    split at hx
    · next hq =>
      split at hx
      · next hd => exact ⟨H.stopped.trans hd, by rw [H.log, hq, List.append_nil]⟩
      · split at hx <;> cases hx
    · cases hx

/-- The consumer 1 waits; the coroutine 0 pushes an empty list, a byte and a second byte, and waits;
the consumer pops both bytes and waits again; 0 stops the queue, and `Pop` returns `false`. -/
def queueRun : List TQueueEvent :=
  [.pop, .turn, .wake 0, .activate, .push [], .push [[7]], .push [[8]], .wait, .activate, .turn,
    .pop, .turn, .wake 0, .activate, .stop, .finish, .activate, .turn]

theorem queue_delivers_bytes :
    ((system 1).run { e := { current := 1 }, running := true } queueRun).map
      (fun st => (st.popped, st.pos)) = some ([[7], [8]], none) ∧
    (system 1).Always (fun st => st.InOrder ∧
      st.WokenUp 1) { e := { current := 1 }, running := true } queueRun :=
  ⟨by decide, (queue_delivers 1 _ true rfl queueRun (by decide)).1⟩

end Balancer
