import Balancer.Kernel.Queue
import Balancer.Modules.Spdy.Frames

/-!
# The streams of a SPDY connection

`modules/spdy/module.cpp`: `TProto::Loop` reads frames and creates a `TConnection` with a coroutine
of its own for every stream. The `TConnection` objects are numbered in the order of their creation,
and `destroyed` counts how often one of them was destroyed: by the holder of its coroutine, or by
the holder in `Loop` when its stream is rejected. `connmap` keeps plain pointers, which nothing
removes.

A coroutine hands over control only inside `Recv` and `Send`, so the events are the stretches in
between: `Loop` from a frame to the next one or to its `SendRst`, and the coroutines of the streams,
which run the inner module on their stream and may do so in any way.
-/

namespace Balancer.Spdy

open Runs

inductive TStreamCont where
  | created
  | running
  | ended
  deriving DecidableEq, Repr

/-- What outlives the pointers to a `TConnection`: where its coroutine stands, and its
destructions. -/
structure TConnection where
  streamID : Nat
  headers : TRequest
  cont : TStreamCont := .created
  destroyed : Nat := 0
  deriving DecidableEq, Repr

/-- `Loop`: at `it.Peek()`, in `SendRst` with the connection that `conn` holds there, or left. -/
inductive TLoopPosition where
  | reading
  | sendingRst (conn : Option Nat)
  | ended
  deriving DecidableEq, Repr

def loopCont : Nat := 0
def streamCont (k : Nat) : Nat := k + 1

/-- The connections with their queues `Q_`, and the variables of `Loop`. -/
structure TProto where
  conns : List TConnection := []
  q : Nat → TChunkQueue := fun _ => {}
  connmap : Nat → Option Nat := fun _ => none
  loop : TLoopPosition := .reading
  e : TContExecutor := { current := loopCont }

/-- `Loop` reads a frame, finds the end of the input, or an exception leaves it; its `SendRst` ends;
the coroutine of a stream starts, receives, does anything else or ends. -/
inductive TProtoEvent where
  | frame (f : TFrame)
  | inputEnd
  | fail
  | sent
  | sendFailed
  | start (k : Nat)
  | recv (k : Nat)
  | send (k : Nat)
  | finish (k : Nat)
  deriving DecidableEq, Repr

namespace TProto

/-- `FinishRead` of a connection. `Reset` is the same. -/
def finishRead (st : TProto) (k : Nat) : TProto :=
  let (q, e) := (st.q k).stop st.e
  { st with q := Function.update st.q k q, e }

def push (st : TProto) (k : Nat) (lst : TChunkList) : TProto :=
  let (q, e) := (st.q k).push lst st.e
  { st with q := Function.update st.q k q, e }

def onDataFrame (st : TProto) (k : Nat) (lst : TChunkList) (fin : Bool) : TProto :=
  if fin then (st.push k lst).finishRead k else st.push k lst

/-- `new TConnection`, which creates the coroutine. -/
def create (st : TProto) (streamID : Nat) (fin : Bool) (headers : TRequest) : TProto :=
  let k := st.conns.length
  let st := { st with
    conns := st.conns ++ [{ streamID, headers }]
    e := st.e.scheduleExecution (streamCont k) }
  if fin then st.finishRead k else st

def modifyConn (st : TProto) (k : Nat) (f : TConnection → TConnection) : TProto :=
  { st with conns := st.conns.modify k f }

def destroy (st : TProto) (k : Nat) : TProto :=
  st.modifyConn k fun c => { c with destroyed := c.destroyed + 1 }

/-- What `Loop` does with a frame, up to its next call that may switch. -/
def handle (st : TProto) : TFrame → TProto
  | .synStream streamID fin headers =>
    let conn := st.conns.length
    match st.connmap streamID with
    | some connptr =>
      { (st.create streamID fin headers).finishRead connptr with loop := .sendingRst (some conn) }
    | none =>
      { st.create streamID fin headers with
        connmap := Function.update st.connmap streamID (some conn) }
  | .rstStream streamID => (st.connmap streamID).elim st st.finishRead
  | .data streamID data fin =>
    match st.connmap streamID with
    | some conn => st.onDataFrame conn data fin
    | none => { st with loop := .sendingRst none }
  | .other => st

/-- `SendRst` in `Loop` ends, and with it the scope of the holder `conn`. -/
def leaveSendRst (st : TProto) (loop : TLoopPosition) : Option TProto :=
  match st.loop with
  | .sendingRst conn => some { conn.elim st st.destroy with loop }
  | _ => none

/-- `DoRecv`: a turn of the loop of `Pop`. -/
def recv (st : TProto) (k : Nat) : TProto :=
  match TChunkQueue.popTurn ({ st.e with current := streamCont k }, st.q k) with
  | .exit _ (e, q) | .again (e, q) | .switch (e, q) => { st with q := Function.update st.q k q, e }

def contAt (st : TProto) (k : Nat) : Option TStreamCont := st.conns[k]?.map TConnection.cont

def system : System TProto TProtoEvent where
  step st
    | .frame f => if st.loop = .reading then some (st.handle f) else none
    | .inputEnd | .fail => if st.loop = .reading then some { st with loop := .ended } else none
    | .sent => st.leaveSendRst .reading
    | .sendFailed => st.leaveSendRst .ended
    | .start k =>
      if st.contAt k = some .created then
        some (st.modifyConn k fun c => { c with cont := .running })
      else none
    | .recv k => if st.contAt k = some .running then some (st.recv k) else none
    | .send k => if st.contAt k = some .running then some st else none
    | .finish k =>
      if st.contAt k = some .running then
        some ((st.modifyConn k fun c => { c with cont := .ended }).destroy k)
      else none

/-! ### The loop on its input -/

/-- The head of `Loop`: what the iterator makes it do. -/
def nextEvent {σ : Type} [IIoInput σ] (inflate : TChunkList → Except TException TChunkList)
    (it : TStreamIterator σ) : TProtoEvent × TStreamIterator σ :=
  match it.peek with
  | (.error _, it) => (.fail, it)
  | (.ok false, it) => (.inputEnd, it)
  | (.ok true, it) =>
    match (readFrame inflate).apply it with
    | (.error _, it) => (.fail, it)
    | (.ok f, it) => (.frame f, it)

/-- A turn of `Loop` with its iterator, or an event that does not read from it. -/
inductive TInputEvent where
  | turn (inflate : TChunkList → Except TException TChunkList)
  | event (ev : TProtoEvent)

def inputSystem (σ : Type) [IIoInput σ] : System (TProto × TStreamIterator σ) TInputEvent where
  step st
    | .turn inflate =>
      let (ev, it) := nextEvent inflate st.2
      (system.step st.1 ev).map (·, it)
    | .event ev =>
      match ev with
      | .frame _ | .inputEnd | .fail => none
      | ev => (system.step st.1 ev).map (·, st.2)

end TProto

end Balancer.Spdy
