import Balancer.Theory.Runs
import Balancer.Util.Green

/-!
# Waiting with deadlines

`TContExecutor::WaitForIO` of `util/green/impl.cpp` with the queue of waits that it cancels, over
the poller that calls `poll`: `TPollPoller` of `util/green/poller.cpp` and `PollD` of
`util/network/socket.cpp`.

The scheduler is a transition system. Its events are what the running coroutine does, the steps of
the loop of `WaitForIO`, the results of `poll`, and the clock; the clock may go on before any of
them. The timeout that `poll` is called with is left out: `poll` may come back at any moment, with
any result.
-/

namespace Balancer

open Runs

/-- Microseconds. -/
abbrev TInstant := UInt64

def TInstant.Max : TInstant := 18446744073709551615

/-! ### `TEventWaitQueue` -/

/-- A wait of the coroutine `cont`. A `TFdEvent` waits for a descriptor too, a `TTimerEvent` does
not. -/
structure TContPollEvent where
  addr : Nat
  cont : Nat
  deadLine : TInstant
  fd : Option (Nat × UInt16) := none
  deriving DecidableEq, Repr

namespace TContPollEvent

/-- `TContPollEventCompare` -/
def compare (l r : TContPollEvent) : Bool :=
  l.deadLine < r.deadLine || (l.deadLine == r.deadLine && l.addr < r.addr)

/-- The order in which the tree keeps its elements. -/
def NotAfter (l r : TContPollEvent) : Prop := ¬r.compare l

instance : DecidableRel NotAfter := fun l r => inferInstanceAs (Decidable ¬(r.compare l = true))

theorem notAfter_iff {l r : TContPollEvent} :
    l.NotAfter r ↔ l.deadLine.toNat < r.deadLine.toNat ∨
      l.deadLine.toNat = r.deadLine.toNat ∧ l.addr ≤ r.addr := by
  simp only [NotAfter, compare, Bool.or_eq_true, Bool.and_eq_true, decide_eq_true_eq, beq_iff_eq,
    UInt64.lt_iff_toNat_lt, ← UInt64.toNat_inj]
  omega

instance : Std.Total NotAfter where
  total l r := by
    simp only [notAfter_iff]
    omega

instance : IsTrans TContPollEvent NotAfter where
  trans a b c := by
    simp only [notAfter_iff]
    omega

end TContPollEvent

/-- The elements of the tree `IoWait_`, in order. -/
structure TEventWaitQueue where
  ioWait : List TContPollEvent := []
  sorted : ioWait.Pairwise TContPollEvent.NotAfter := by simp

namespace TEventWaitQueue

def unLink (q : TEventWaitQueue) (ev : TContPollEvent) : TEventWaitQueue where
  ioWait := q.ioWait.erase ev
  sorted := q.sorted.sublist List.erase_sublist

/-- `Insert` takes the event out of the tree first. -/
def register (q : TEventWaitQueue) (ev : TContPollEvent) : TEventWaitQueue where
  ioWait := (q.unLink ev).ioWait.orderedInsert TContPollEvent.NotAfter ev
  sorted := (q.unLink ev).sorted.orderedInsert ev _

end TEventWaitQueue

/-! ### `TPollPoller` -/

def POLLIN : UInt16 := 1
def POLLOUT : UInt16 := 4
def POLLERR : UInt16 := 8
def POLLHUP : UInt16 := 16
def POLLNVAL : UInt16 := 32

/-- `IPollerFace::TEvent`; its `Data` is the list of the descriptor. -/
structure TPollerEvent where
  fd : Nat
  status : Int
  filter : UInt16
  deriving DecidableEq, Repr

/-- The descriptors with their `revents`, when `poll` has returned a positive number. -/
structure TPollFds where
  fds : List (Nat × UInt16)
  ready : ∃ pfd ∈ fds, pfd.2 ≠ 0

/-- A result of `poll`: events, zero, or an error. -/
inductive TPoll where
  | events (t : TPollFds)
  | timeout
  | failed (err : Int)

/-- A turn of the loop of `PollD`; `none` if `poll` is called again. `now` is the clock after the
call. -/
def pollD (deadLine now : TInstant) : TPoll → Option (Except Int (List (Nat × UInt16)))
  | .events t => some (.ok t.fds)
  | .timeout => if now < deadLine then none else some (.error ETIMEDOUT)
  | .failed err =>
    if err ≠ ETIMEDOUT then some (.error err)
    else if now < deadLine then none
    else some (.error ETIMEDOUT)

namespace TPollPoller

def event (fd : Nat) (ev : UInt16) : TPollerEvent :=
  let filter :=
    (if ev &&& POLLIN ≠ 0 then CONT_POLL_READ else 0) |||
      (if ev &&& POLLOUT ≠ 0 then CONT_POLL_WRITE else 0)
  let status :=
    if ev &&& POLLERR ≠ 0 then EIO
    else if ev &&& POLLHUP ≠ 0 then EPIPE
    else if ev &&& POLLNVAL ≠ 0 then EINVAL
    else 0
  { fd, status, filter := if status ≠ 0 then CONT_POLL_READ ||| CONT_POLL_WRITE else filter }

/-- The events that `Wait` adds, for a result of `PollD`. -/
def wait : Except Int (List (Nat × UInt16)) → List TPollerEvent
  | .error _ => []
  | .ok fds => (fds.filter fun pfd => pfd.2 ≠ 0).map fun pfd => event pfd.1 pfd.2

end TPollPoller

/-! ### The scheduler -/

/-- What an `IPollEvent` in a list of the poller is: a `TFdEvent`, or an object with a callback of
its own. -/
inductive TPollOwner where
  | wait (ev : TContPollEvent)
  | callBack (addr : Nat)
  deriving DecidableEq, Repr

/-- The `IPollEvent` part of a `TFdEvent`. -/
def TContPollEvent.pollEvent (ev : TContPollEvent) : Option (IPollEvent TPollOwner) :=
  ev.fd.map fun (fd, what) => { owner := .wait ev, fd, what }

/-- A call of `Wake(status)`, with the clock at that moment. -/
structure TWoken where
  event : TContPollEvent
  status : Int
  time : TInstant
  deriving DecidableEq, Repr

/-- Where the thread of the executor stands: in the coroutine `e.current`, at the head of the loop
of `WaitForIO`, in `PollD`, in the loop over `Events_`, or at the end of `RunScheduler`. -/
inductive TSchedulerPos where
  | running
  | waitForIO
  | polling (next : TInstant)
  | dispatching (events : List TPollerEvent)
  | stopped
  deriving DecidableEq, Repr

/-- `woken` is a log. -/
structure TContScheduler where
  now : TInstant := 0
  e : TContExecutor
  queue : TEventWaitQueue := {}
  poller : TContPoller TPollOwner := {}
  pos : TSchedulerPos := .running
  woken : List TWoken := []

/-- `wait` is `ExecuteEvent` or `SelectD`, `yield` is `ReScheduleAndSwitch`, and a wait is destroyed
when the coroutine returns from it. `wake` is any other call of `ScheduleExecution`; it, `cancel`,
`schedule` and `remove` may come from a callback of the poller too. -/
inductive TSchedulerEvent where
  | tick (now : TInstant)
  | wait (evs : List TContPollEvent)
  | yield
  | finish
  | destroy (ev : TContPollEvent)
  | wake (c : Nat)
  | cancel (c : Nat)
  | schedule (addr fd : Nat) (what : UInt16)
  | remove (addr fd : Nat) (what : UInt16)
  | waitForIO
  | poll (r : TPoll)
  | dispatch

namespace TContScheduler

/-- `TContPollEvent::Wake(status)` -/
def wake (status : Int) (s : TContScheduler) (ev : TContPollEvent) : TContScheduler :=
  { s with
    e := s.e.scheduleExecution ev.cont
    queue := s.queue.unLink ev
    woken := s.woken ++ [⟨ev, status, s.now⟩] }

/-- `OnPollEvent`; what the callback of another object does is told by the events that follow. -/
def onPollEvent (status : Int) (s : TContScheduler) (ev : IPollEvent TPollOwner) : TContScheduler :=
  match ev.owner with
  | .wait ev => s.wake status ev
  | .callBack _ => s

/-- `TEventWaitQueue::CancelTimedOut` -/
def cancelTimedOut (s : TContScheduler) (now : TInstant) : TInstant × TContScheduler :=
  match s.queue.ioWait with
  | [] => (now, s)
  | ev :: _ =>
    if ev.deadLine > now then (ev.deadLine, s)
    else (now, (s.queue.ioWait.takeWhile fun ev => ev.deadLine ≤ now).foldl (wake ETIMEDOUT) s)

/-- `ScheduleIoWait`; the coroutine is taken out of `Ready_` by `executeEvent`. -/
def scheduleIoWait (s : TContScheduler) (ev : TContPollEvent) : TContScheduler :=
  { s with queue := s.queue.register ev, poller := ev.pollEvent.elim s.poller s.poller.schedule }

/-- The destructors of a wait. -/
def destroy (s : TContScheduler) (ev : TContPollEvent) : TContScheduler :=
  { s with queue := s.queue.unLink ev, poller := ev.pollEvent.elim s.poller s.poller.remove }

def executeEvents (s : TContScheduler) (evs : List TContPollEvent) : TContScheduler :=
  match s.e.executeEvent with
  | .returned _ => s
  | .switched e => { evs.foldl scheduleIoWait s with e, pos := TSchedulerPos.waitForIO }

/-- The head of the loop of `WaitForIO`, up to the call of `poll`, or out of it to the loop of
`RunScheduler`. -/
def waitForIO (s : TContScheduler) : TContScheduler :=
  if s.e.ready = [] ∧ s.queue.ioWait ≠ [] then
    let (next, s) := s.cancelTimedOut s.now
    { s with pos := .polling next }
  else
    match s.e.activate with
    | none => { s with pos := .stopped }
    | some e => { s with e, pos := .running }

/-- What follows in `WaitForIO` when `Wait` returns with `events`. -/
def waited (s : TContScheduler) (next : TInstant) (events : List TPollerEvent) : TContScheduler :=
  let s := if events.isEmpty then (s.cancelTimedOut next).2 else s
  { s with pos := .dispatching events }

/-- A turn of `PollD`, which `Wait` has called with `next`. -/
def polled (s : TContScheduler) (next : TInstant) (r : TPoll) : TContScheduler :=
  match pollD next s.now r with
  | none => s
  | some ret => s.waited next (TPollPoller.wait ret)

/-- A turn of the loop over `Events_`. -/
def dispatched (s : TContScheduler) : List TPollerEvent → TContScheduler
  | [] => { s with pos := TSchedulerPos.waitForIO }
  | ev :: events =>
    { (s.poller.delivered ev.fd ev.status ev.filter).foldl (onPollEvent ev.status) s with
      pos := .dispatching events }

/-- The code of a coroutine or a callback runs. -/
def InCode (s : TContScheduler) : Prop :=
  match s.pos with
  | .running | .dispatching _ => True
  | _ => False

instance (s : TContScheduler) : Decidable s.InCode := by unfold InCode; split <;> infer_instance

/-- `poll` reports only descriptors that it was asked about. -/
def Reports (s : TContScheduler) : TPoll → Prop
  | .events t => ∀ pfd ∈ t.fds, s.poller.set pfd.1 ≠ 0
  | _ => True

instance (s : TContScheduler) (r : TPoll) : Decidable (s.Reports r) := by
  unfold Reports; split <;> infer_instance

def step (s : TContScheduler) : TSchedulerEvent → Option TContScheduler
  | .tick now => if s.now ≤ now then some { s with now } else none
  | .wait evs =>
    if s.pos = .running ∧ evs ≠ [] ∧ ∀ ev ∈ evs, ev.cont = s.e.current then
      some (s.executeEvents evs)
    else none
  | .yield =>
    if s.pos = .running then
      some { s with e := s.e.scheduleExecution s.e.current, pos := TSchedulerPos.waitForIO }
    else none
  | .finish => if s.pos = .running then some { s with pos := TSchedulerPos.waitForIO } else none
  | .destroy ev => if s.pos = .running ∧ ev.cont = s.e.current then some (s.destroy ev) else none
  | .wake c => if s.InCode then some { s with e := s.e.scheduleExecution c } else none
  | .cancel c => if s.InCode then some { s with e := s.e.cancel c } else none
  | .schedule addr fd what =>
    if s.InCode then some { s with poller := s.poller.schedule ⟨.callBack addr, fd, what⟩ }
    else none
  | .remove addr fd what =>
    if s.InCode then some { s with poller := s.poller.remove ⟨.callBack addr, fd, what⟩ } else none
  | TSchedulerEvent.waitForIO => if s.pos = TSchedulerPos.waitForIO then some s.waitForIO else none
  | .poll r =>
    match s.pos with
    | .polling next => if s.Reports r then some (s.polled next r) else none
    | _ => none
  | .dispatch =>
    match s.pos with
    | .dispatching events => some (s.dispatched events)
    | _ => none

/-- The scheduler over any coroutines, clock and results of `poll`. -/
def system : System TContScheduler TSchedulerEvent where
  step := step

end TContScheduler

end Balancer
