import Balancer.Kernel.Chunks
import Balancer.Theory.Runs
import Balancer.Util.Green

/-!
# Events and queues between coroutines

`kernel/syncro.h` and `kernel/queue.h`. A `TMyEvent` remembers one signal in `S_` and the coroutine
that waits for the next one in `Ev_`; what `SleepD` returns is ignored. `TChunkQueue::Pop` waits in
a loop.
-/

namespace Balancer

open Runs

/-! ### `TMyEvent` -/

/-- The coroutine of the `TContEvent` that `Ev_` points to, and `S_`. -/
structure TMyEvent where
  ev : Option Nat := none
  s : Bool := false
  deriving DecidableEq, Repr

namespace TMyEvent

def signal (m : TMyEvent) (e : TContExecutor) : TMyEvent × TContExecutor :=
  ({ m with s := true }, m.ev.elim e e.scheduleExecution)

/-- The rest of `Wait` after `SleepD`, or after a signal that was there already. -/
def waited : TMyEvent := {}

/-- `Wait` in the running coroutine, up to where it returns or switches. -/
def wait (m : TMyEvent) (e : TContExecutor) : Option TContExecutor × TMyEvent :=
  if m.s then (none, waited)
  else
    match e.executeEvent with
    | .returned _ => (none, waited)
    | .switched e' => (some e', { m with ev := some e.current })

theorem wait_signalled {m : TMyEvent} (h : m.s = true) (e : TContExecutor) :
    m.wait e = (none, waited) := by
  simp [wait, h]

theorem wait_cancelled (m : TMyEvent) {e : TContExecutor} (h : e.current ∈ e.cancelled) :
    m.wait e = (none, waited) := by
  simp [wait, TContExecutor.executeEvent_cancelled h]

end TMyEvent

/-! ### `TChunkQueue` -/

structure TChunkQueue where
  allDone : Bool := false
  event : TMyEvent := {}
  chunks : TChunkList := []
  deriving DecidableEq, Repr

namespace TChunkQueue

def push (q : TChunkQueue) (lst : TChunkList) (e : TContExecutor) : TChunkQueue × TContExecutor :=
  let (event, e) := q.event.signal e
  ({ q with chunks := q.chunks ++ lst, event }, e)

def stop (q : TChunkQueue) (e : TContExecutor) : TChunkQueue × TContExecutor :=
  let (event, e) := q.event.signal e
  ({ q with allDone := true, event }, e)

/-- One turn of the loop of `Pop`; the loop is left with the popped list, or with `none` for
`false`. -/
def popTurn (st : TContExecutor × TChunkQueue) :
    Turn (Option TChunkList) (TContExecutor × TChunkQueue) :=
  let (e, q) := st
  if q.chunks = [] then
    if q.allDone then .exit none (e, q)
    else
      match q.event.wait e with
      | (none, event) => .again (e, { q with event })
      | (some e, event) => .switch (e, { q with event })
  else .exit (some q.chunks) (e, { q with chunks := [] })

variable {e : TContExecutor} {q : TChunkQueue}

theorem popTurn_popped (h : q.chunks ≠ []) :
    popTurn (e, q) = .exit (some q.chunks) (e, { q with chunks := [] }) := by
  simp [popTurn, h]

theorem popTurn_done (h : q.chunks = []) (hd : q.allDone = true) :
    popTurn (e, q) = .exit none (e, q) := by
  simp [popTurn, h, hd]

theorem popTurn_cancelled (h : q.chunks = []) (hd : q.allDone = false)
    (hc : e.current ∈ e.cancelled) : popTurn (e, q) = .again (e, { q with event := .waited }) := by
  simp [popTurn, h, hd, TMyEvent.wait_cancelled _ hc]

/-- The queue when the coroutine that runs next reaches the head of the loop. -/
def atHead (q : TChunkQueue) : Position → TChunkQueue
  | .head => q
  | .waiting => { q with event := .waited }

end TChunkQueue

end Balancer
