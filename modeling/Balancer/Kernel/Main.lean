import Balancer.Theory.Runs
import Balancer.Util.Green

/-!
# The connections of the server

`kernel/main.cpp`: `TMainTask` with its list `Connections_`, from which `OnAcceptFull` takes and
cancels the oldest ones. A connection is a number, in the order of `accept`. It runs in a coroutine
of its own, which waits for its socket with a `TFdEvent` inside of `ReadI` and sends over a
`TSocketOut`; both are events of the poller for the descriptor that the socket had when they were
created.

`Cancel` closes the socket from the coroutine of the listener. `accept` may return a number again as
soon as it was closed.
-/

namespace Balancer

open Runs

/-- `INVALID_SOCKET`, as an index of the lists of the poller. -/
def INVALID_SOCKET : Nat := 2 ^ 64 - 1

/-- The two kinds of events that a connection has in the poller. -/
inductive TPollKind where
  | socketOut
  | fdEvent
  deriving DecidableEq, Repr

abbrev TConnectionEvent := IPollEvent (Nat × TPollKind)

structure TConnection where
  /-- The number that `accept` returned. -/
  fd : Nat
  /-- `S_` holds no descriptor any more. -/
  closed : Bool := false
  /-- How often `Cancel` was called. -/
  cancelled : Nat := 0
  /-- The descriptor of the `TSocketOut`, while there is one. -/
  out : Option Nat := none
  /-- The calls of `Send` that have not returned. -/
  sending : Nat := 0
  /-- The coroutine is inside of `PollD`. -/
  polling : Bool := false
  ended : Bool := false
  deriving DecidableEq, Repr

namespace TConnection

/-- `S_.Close()` -/
def cancel (conn : TConnection) : TConnection :=
  { conn with closed := true, cancelled := conn.cancelled + 1 }

/-- `*S_` -/
def socket (conn : TConnection) : Nat := if conn.closed then INVALID_SOCKET else conn.fd

end TConnection

def socketOut (c fd : Nat) : TConnectionEvent := ⟨(c, .socketOut), fd, CONT_POLL_WRITE⟩
def fdEvent (c fd : Nat) : TConnectionEvent := ⟨(c, .fdEvent), fd, CONT_POLL_READ⟩

structure TMainTask where
  maxConnections : Nat
  canceled : Nat := 0
  connections : List Nat := []
  conns : List TConnection := []
  poller : TContPoller (Nat × TPollKind) := {}

/-- The coroutine of a connection starts, calls `Send` and comes back from it or fails, waits in
`ReadI`, comes back from the wait (and waits again if there is nothing to read), ends. With
`written` the callback of its `TSocketOut` is done with the queue. -/
inductive TConnectionCall where
  | start
  | send
  | sent
  | sendFailed
  | written
  | wait
  | resume (again : Bool)
  | complete
  deriving DecidableEq, Repr

inductive TMainEvent where
  | accept (fd : Nat)
  | conn (c : Nat) (call : TConnectionCall)
  deriving DecidableEq, Repr

namespace TMainTask

def modifyConn (st : TMainTask) (c : Nat) (f : TConnection → TConnection) : TMainTask :=
  { st with conns := st.conns.modify c f }

/-- The loop of `OnAcceptFull` on the list that is left of `Connections_`. -/
def evict (st : TMainTask) : List Nat → TMainTask
  | [] => { st with connections := [] }
  | c :: rest =>
    if (c :: rest).length > st.maxConnections then
      ({ st.modifyConn c TConnection.cancel with canceled := st.canceled + 1 } : TMainTask).evict
        rest
    else { st with connections := c :: rest }

def onAcceptFull (st : TMainTask) (fd : Nat) : TMainTask :=
  let st := if st.maxConnections ≠ 0 then st.evict st.connections else st
  { st with connections := st.connections ++ [st.conns.length], conns := st.conns ++ [{ fd }] }

/-- `UpPriority`: `PushBack` takes the connection out of the list first, if it is there. -/
def upPriority (st : TMainTask) (c : Nat) : TMainTask :=
  { st with connections := st.connections.erase c ++ [c] }

/-- `~TSocketOut`, `~TConnection`: the connection leaves the poller and the list and closes its
socket. -/
def finish (st : TMainTask) (c fd : Nat) : TMainTask :=
  { st.modifyConn c fun conn => { conn with out := none, closed := true, ended := true } with
    connections := st.connections.erase c
    poller := st.poller.remove (socketOut c fd) }

/-- What the coroutine of the connection `c` does. -/
def connStep (st : TMainTask) (c : Nat) (conn : TConnection) : TConnectionCall → Option TMainTask
  | .start =>
    if conn.out = none ∧ conn.ended = false then
      some (st.modifyConn c fun conn => { conn with out := some conn.socket })
    else none
  | .send => conn.out.map fun fd =>
    { st.modifyConn c fun conn => { conn with sending := conn.sending + 1 } with
      poller := st.poller.schedule (socketOut c fd) }
  | .sent =>
    if 0 < conn.sending then
      some ((st.modifyConn c fun conn => { conn with sending := conn.sending - 1 }).upPriority c)
    else none
  | .sendFailed =>
    if 0 < conn.sending then
      some (st.modifyConn c fun conn => { conn with sending := conn.sending - 1 })
    else none
  | .written => conn.out.bind fun fd =>
    if socketOut c fd ∈ st.poller.list fd then
      some { st with poller := st.poller.remove (socketOut c fd) }
    else none
  | .wait =>
    if conn.out.isSome ∧ conn.polling = false ∧ conn.closed = false then
      some { st.modifyConn c fun conn => { conn with polling := true } with
        poller := st.poller.schedule (fdEvent c conn.fd) }
    else none
  | .resume true =>
    if conn.polling then
      some { st with poller := (st.poller.remove (fdEvent c conn.fd)).schedule (fdEvent c conn.fd) }
    else none
  | .resume false =>
    if conn.polling then
      some { st.modifyConn c fun conn => { conn with polling := false } with
        poller := st.poller.remove (fdEvent c conn.fd) }
    else none
  | .complete =>
    if conn.polling = false ∧ conn.sending = 0 then conn.out.map (st.finish c) else none

/-- A descriptor that `accept` may return. -/
def Free (st : TMainTask) (fd : Nat) : Prop :=
  fd ≠ INVALID_SOCKET ∧ ∀ conn ∈ st.conns, conn.closed = false → conn.fd ≠ fd

instance (st : TMainTask) (fd : Nat) : Decidable (st.Free fd) := by
  unfold Free; infer_instance

def system : System TMainTask TMainEvent where
  step st
    | .accept fd => if st.Free fd then some (st.onAcceptFull fd) else none
    | .conn c call => st.conns[c]?.bind fun conn => st.connStep c conn call

end TMainTask

end Balancer
