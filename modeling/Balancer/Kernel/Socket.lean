import Balancer.Kernel.IoBase
import Balancer.Theory.Runs
import Balancer.Util.Green

/-!
# Writing to a socket

`kernel/socket.cpp`: `TSocketOut` queues what is sent to it in `W_` and writes the queue from the
callback of the poller. A coroutine that finds too much in the queue sleeps inside `Flush` until it
is woken, so one `TSocketOut` is a transition system: its events are the calls of `DoSend` and
`Flush`, the moments where a sleeping coroutine goes on, and the callbacks `OnPollEvent`. Coroutines
switch only in `SleepI`, which makes each event atomic.
-/

namespace Balancer

/-- The fields of `TSocketOut`; coroutines are numbers. -/
structure TSocketOut where
  w : TChunkList := []
  wake : Option Nat := none
  maxInQueue : Nat
  err : Int := 0

namespace TSocketOut

/-- One turn of the loop of `Flush(keep)` in the running coroutine. -/
def flushTurn (keep : Nat) (st : TContExecutor × TSocketOut) :
    Runs.Turn (Except TException Unit) (TContExecutor × TSocketOut) :=
  let (e, out) := st
  if out.w.fullLength > keep then
    if out.err ≠ 0 then .exit (.error (.systemError out.err "send failed")) (e, out)
    else
      match e.executeEvent with
      | .returned _ => .again (e, { out with wake := none })
      | .switched e' => .switch (e', { out with wake := some e.current })
  else .exit (.ok ()) (e, out)

/-- The fields when the coroutine that runs next reaches the head of the loop. -/
def atHead (out : TSocketOut) : Runs.Position → TSocketOut
  | .head => out
  | .waiting => { out with wake := none }

variable {keep : Nat} {e : TContExecutor} {out : TSocketOut}

theorem flushTurn_returned (h : out.w.fullLength ≤ keep) :
    flushTurn keep (e, out) = .exit (.ok ()) (e, out) := by
  simp [flushTurn, Nat.not_lt.2 h]

theorem flushTurn_threw (h : keep < out.w.fullLength) (herr : out.err ≠ 0) :
    flushTurn keep (e, out) = .exit (.error (.systemError out.err "send failed")) (e, out) := by
  simp [flushTurn, h, herr]

theorem flushTurn_cancelled (h : keep < out.w.fullLength) (herr : out.err = 0)
    (hc : e.current ∈ e.cancelled) :
    flushTurn keep (e, out) = .again (e, { out with wake := none }) := by
  simp [flushTurn, h, herr, TContExecutor.executeEvent_cancelled hc]

theorem flushTurn_switched (h : keep < out.w.fullLength) (herr : out.err = 0)
    (hc : e.current ∉ e.cancelled) :
    ∃ e', flushTurn keep (e, out) = .switch (e', { out with wake := some e.current }) := by
  simp [flushTurn, h, herr, TContExecutor.executeEvent_switched hc]

end TSocketOut

/-- A `TSocketOut` with what lies around it: whether it is registered in the poller, the coroutines
that `ReSchedule` was called for, those asleep in `Flush(keep)`, and the bytes that the socket has
accepted. -/
structure TSocketState where
  out : TSocketOut
  scheduled : Bool := false
  ready : List Nat := []
  sleeping : List (Nat × Nat) := []
  accepted : List UInt8 := []

/-- What `writev` does. -/
inductive TWriteV where
  | written (n : Nat)
  | failed (errno : Int)
  deriving DecidableEq, Repr

/-- `DoWriteVector`: the value that `writev` returns. -/
def TWriteV.res : TWriteV → Int
  | .written n => n
  | .failed _ => -1

/-- The most parts that `writev` takes. -/
def IOV_MAX : Nat := 1024

/-- `TContIOVector::Proceed(len)` -/
def TContIOVector.proceed : Nat → TChunkList → TChunkList
  | _, [] => []
  | len, part :: parts =>
    if len < part.length then part.drop len :: parts else proceed (len - part.length) parts

structure TContIOStatus where
  processed : Nat
  status : Int
  deriving DecidableEq, Repr

/-- `TCont::WriteVectorD`, the other caller of `DoWriteVector`, when `written` bytes have been
written. Each turn has what `writev` does and what `PollD` returns if it is called; `none` when the
turns are used up. -/
def writeVectorD : TChunkList → Nat → List (TWriteV × Int) → Option TContIOStatus
  | [], written, _ => some ⟨written, 0⟩
  | _ :: _, _, [] => none
  | vec, written, (wr, poll) :: turns =>
    match wr with
    | .written n => writeVectorD (TContIOVector.proceed n vec) (written + n) turns
    | .failed errno =>
      if !isBlocked errno then some ⟨written, errno⟩
      else if poll ≠ 0 then some ⟨written, poll⟩
      else writeVectorD vec written turns

inductive TSocketEvent where
  | doSend (c : Nat) (lst : TChunkList)
  | flush (c : Nat)
  | resume (c keep : Nat)
  | onPollEvent (status : Int) (wr : TWriteV)

/-- How a call of `Flush` stands after an event; `callback` for the events that are no part of
one. -/
inductive TFlush where
  | returned
  | threw (e : TException)
  | suspended
  | callback
  deriving DecidableEq

namespace TSocketState

def init (maxInQueue : Nat) : TSocketState := { out := { maxInQueue } }

/-- `Flush(keep)` in the coroutine `c`, from the head of its loop up to the next `SleepI`. -/
def flush (c keep : Nat) (st : TSocketState) : TFlush × TSocketState :=
  if st.out.w.fullLength > keep then
    if st.out.err ≠ 0 then (.threw (.systemError st.out.err "send failed"), st)
    else
      (.suspended, { st with
        out := { st.out with wake := some c }, sleeping := (c, keep) :: st.sleeping })
  else (.returned, st)

def doSend (c : Nat) (lst : TChunkList) (st : TSocketState) : TFlush × TSocketState :=
  flush c st.out.maxInQueue
    { st with out := { st.out with w := st.out.w ++ lst }, scheduled := true }

/-- `SleepI` returns in the coroutine `c`. -/
def resume (c keep : Nat) (st : TSocketState) : TFlush × TSocketState :=
  flush c keep { st with
    out := { st.out with wake := none }, sleeping := st.sleeping.erase (c, keep) }

/-- `OnPollEvent(status)`; `none` when the `VERIFY` stops the program. The whole queue is offered to
`writev`, which takes as many bytes of it as it returns. -/
def onPollEvent (status : Int) (wr : TWriteV) (st : TSocketState) : Option TSocketState :=
  let st := { st with ready := st.ready ++ st.out.wake.toList }
  if status ≠ 0 then some { st with out := { st.out with err := status }, scheduled := false }
  else if wr.res < 0 then
    let err := -wr.res
    if isBlocked err then none
    else some { st with out := { st.out with err := err }, scheduled := false }
  else
    let res := wr.res.toNat
    let st := { st with accepted := st.accepted ++ st.out.w.flatten.take res }
    if res = st.out.w.fullLength then
      some { st with out := { st.out with w := [] }, scheduled := false }
    else some { st with out := { st.out with w := (st.out.w.split res).2 } }

/-- The events that can happen: a coroutine goes on only where it sleeps, and `writev` does not take
more than it is offered. -/
def Enabled (st : TSocketState) : TSocketEvent → Prop
  | .resume c keep => (c, keep) ∈ st.sleeping
  | .onPollEvent _ (.written n) => n ≤ st.out.w.fullLength
  | _ => True

instance (st : TSocketState) (ev : TSocketEvent) : Decidable (st.Enabled ev) := by
  unfold Enabled; split <;> infer_instance

def step (st : TSocketState) (ev : TSocketEvent) : Option (TFlush × TSocketState) :=
  if st.Enabled ev then
    match ev with
    | .doSend c lst => some (st.doSend c lst)
    | .flush c => some (st.flush c 0)
    | .resume c keep => some (st.resume c keep)
    | .onPollEvent status wr => (st.onPollEvent status wr).map (.callback, ·)
  else none

def run (st : TSocketState) : List TSocketEvent → Option TSocketState
  | [] => some st
  | ev :: evs => (st.step ev).bind fun p => p.2.run evs

end TSocketState

namespace TSocketEvent

/-- The bytes that an event passes to `DoSend`. -/
def passed : TSocketEvent → List UInt8
  | .doSend _ lst => lst.flatten
  | _ => []

/-- Whether an event is a part of the public `Flush()`, which keeps nothing in the queue. -/
def IsFlush : TSocketEvent → Prop
  | .flush _ => True
  | .resume _ keep => keep = 0
  | _ => False

end TSocketEvent

end Balancer
