import Balancer.Kernel.Queue

/-!
# The two coroutines of the proxy

`modules/proxy/proxy.cpp`. `TProxy::Run` starts a coroutine for the worker `f`, copies in the other
direction itself (`t.Run`) and then waits for the `TMyEvent` that the coroutine of `f` signals at
its end. Here the workers are reduced to where they stand: every `Recv` and every `Send` may succeed
or throw, and may hand over control before it does.
-/

namespace Balancer

/-- How a call of `Recv` or `Send` in `TWorker::Run` ends; `recv true` is a list with data. -/
inductive TWorkerCall where
  | recv (data : Bool)
  | send
  | threw
  deriving DecidableEq, Repr

/-- The call that a worker is in, or how it has left `Run`. -/
inductive TWorkerPosition where
  | recv
  | send
  | left (ok : Bool)
  deriving DecidableEq, Repr

def TWorkerPosition.step : TWorkerPosition → TWorkerCall → Option TWorkerPosition
  | .recv, .recv true => some .send
  | .recv, .recv false => some (.left true)
  | .recv, .threw => some (.left false)
  | .send, .send => some .recv
  | .send, .threw => some (.left false)
  | _, _ => none

/-- `TProxy::Run` -/
inductive TProxyPosition where
  | copying
  | waiting
  | returned
  | threw
  deriving DecidableEq, Repr

/-- The coroutine that calls `TProxy::Run`, the one that is created for `f`, and some other one. -/
def proxyCont : Nat := 0
def forwardCont : Nat := 1
def otherCont : Nat := 2

structure TProxyState where
  f : TWorkerPosition := .recv
  t : TWorkerPosition := .recv
  run : TProxyPosition := .copying
  event : TMyEvent := {}
  e : TContExecutor := { current := proxyCont, ready := [forwardCont] }
  deriving DecidableEq, Repr

/-- A call of one of the workers ends, `TProxy::Run` goes on after its wait, or a coroutine is
cancelled by another one. -/
inductive TProxyEvent where
  | forward (call : TWorkerCall)
  | back (call : TWorkerCall)
  | resume
  | cancel (c : Nat)
  deriving DecidableEq, Repr

namespace TProxyState

/-- `operator()` of `f`: however `Run` is left, the event is signalled and the coroutine ends. -/
def forward (st : TProxyState) (call : TWorkerCall) : Option TProxyState :=
  match st.f.step call with
  | none => none
  | some (.left ok) =>
    let (event, e) := st.event.signal { st.e with current := forwardCont }
    some { st with f := .left ok, event, e }
  | some f => some { st with f }

/-- `f.Wait()` -/
def wait (st : TProxyState) : TProxyState :=
  match st.event.wait { st.e with current := proxyCont } with
  | (none, event) => { st with event, run := .returned }
  | (some e, event) => { st with event, e, run := .waiting }

/-- `t.Run`, and what `TProxy::Run` does after it. -/
def back (st : TProxyState) (call : TWorkerCall) : Option TProxyState :=
  if st.run = .copying then
    match st.t.step call with
    | none => none
    | some (.left true) => some ({ st with t := .left true } : TProxyState).wait
    | some (.left false) => some { st with t := .left false, run := .threw }
    | some t => some { st with t }
  else none

/-- The wait ends when the scheduler comes to the coroutine. -/
def resume (st : TProxyState) : Option TProxyState :=
  if st.run = .waiting ∧ proxyCont ∈ st.e.ready then
    some { st with
      run := .returned
      event := .waited
      e := { st.e with current := proxyCont, ready := st.e.ready.erase proxyCont } }
  else none

def system : Runs.System TProxyState TProxyEvent where
  step st
    | .forward call => st.forward call
    | .back call => st.back call
    | .resume => st.resume
    | .cancel c =>
      some { st with e := ({ st.e with current := otherCont } : TContExecutor).cancel c }

end TProxyState

end Balancer
