import Balancer.Modules.Balancer.Module
import Balancer.Theory.Runs

/-!
# The pinger module

`modules/pinger/module.cpp` with `TMyEvent` of `kernel/syncro.h`, and what `TMainTask` of
`kernel/main.cpp` does with `Listener_` for it and in `DoShutDown`. Requests register with the
arbiter whenever they end. A failure that the arbiter does not tolerate wakes the coroutine
`Pinger`, which stops the listener and pings the backends until the arbiter authorizes again.

A step is what one coroutine does between two switches. `Pinger` switches in `Wait`, in `SleepT`,
inside of a ping, and in the destructor of the old listener, which waits for the coroutines that
accept; so does `DoShutDown`. The pointer in `Listener_` is replaced after the destructor.
Connections, the clock and the delays only decide when a step may come, and any order of steps is
considered. What it does to the heap if one listener is destroyed twice is not.
-/

namespace Balancer

open Runs

/-- What `Listener_` points to: a new `TContListener`, or one that was bound and listens. -/
inductive TListenerPtr where
  | null
  | stopped
  | started
  deriving DecidableEq, Repr

/-- Where `Pinger` stands. `stopping` is inside of `StopListener`, `crashed` behind a null
pointer. -/
inductive TPingerPos where
  | start
  | waiting
  | stopping
  | sleeping
  | pinging
  | ended
  | crashed
  deriving DecidableEq, Repr

/-- `signalled` is `S_` of `PingActivator_`. `cancelled` is set by `Abort`. `destroying` counts the
calls of `DoShutDown` in the destructor of the listener, `destroyed` tells that one has left it.
`stops` is a log of what `Authorize()` was in the calls of `StopListener`. -/
structure TPinger (α : Type) where
  arbiter : α
  signalled : Bool := false
  cancelled : Bool := false
  pos : TPingerPos := .start
  listener : TListenerPtr := .started
  destroying : Nat := 0
  destroyed : Bool := false
  stops : List Bool := []
  deriving DecidableEq

/-- `succ` and `fail` are ends of requests. `resume` is a turn of the coroutine `Pinger`; `ping` is
the result of a ping that ends with it, and `bound` tells if `Bind` and `Listen` do not throw. -/
inductive TPingerEvent where
  | succ
  | fail
  | resume (ping bound : Bool)
  | shutDown
  | listenerDestroyed
  | abort
  deriving DecidableEq, Repr

namespace TPinger

variable {α : Type} [IReAskArbiter α]

/-- `DoRun`, when the module behind has succeeded. -/
def registerSucc (s : TPinger α) : TPinger α :=
  { s with arbiter := IReAskArbiter.registerSucc s.arbiter }

/-- `DoRun`, when the module behind has failed. -/
def registerFail (s : TPinger α) : TPinger α :=
  let arbiter := IReAskArbiter.registerFail s.arbiter
  { s with arbiter, signalled := s.signalled || !IReAskArbiter.authorize arbiter }

/-- From the end of `Wait` to the destructor of the old listener. -/
def woken (s : TPinger α) : TPinger α :=
  match s.listener with
  | .null => { s with signalled := false, pos := .ended }
  | _ =>
    { s with
      signalled := false
      pos := .stopping
      stops := s.stops ++ [IReAskArbiter.authorize s.arbiter] }

/-- `PingActivator_.Wait()`; a coroutine that has been cancelled does not wait. -/
def wait (s : TPinger α) : TPinger α :=
  if s.signalled || s.cancelled then s.woken else { s with pos := .waiting }

/-- `StartListener`, and on to the next turn of the loop. -/
def startListener (bound : Bool) (s : TPinger α) : TPinger α :=
  match s.listener with
  | .null => { s with pos := .crashed }
  | _ => if bound then { s with listener := .started }.wait else { s with pos := .ended }

/-- The head of the loop of pings. -/
def pingLoop (bound : Bool) (s : TPinger α) : TPinger α :=
  if IReAskArbiter.authorize s.arbiter then s.startListener bound else { s with pos := .sleeping }

/-- What a ping registers. -/
def registerPing (ping : Bool) (s : TPinger α) : TPinger α :=
  { s with arbiter :=
      if ping then IReAskArbiter.registerSucc s.arbiter
      else IReAskArbiter.registerFail s.arbiter }

def resume (ping bound : Bool) (s : TPinger α) : Option (TPinger α) :=
  match s.pos with
  | .start => some s.wait
  | .waiting => if s.signalled || s.cancelled then some s.woken else none
  | .stopping => some ({ s with listener := .stopped }.pingLoop bound)
  | .sleeping => some { s with pos := .pinging }
  | .pinging => some ((s.registerPing ping).pingLoop bound)
  | .ended | .crashed => none

/-- `Listener_.Destroy()`; a listener without coroutines is destroyed at once. -/
def shutDown (s : TPinger α) : TPinger α :=
  match s.listener with
  | .started => { s with destroying := s.destroying + 1 }
  | _ => { s with listener := .null, destroyed := true }

def step (s : TPinger α) (e : TPingerEvent) : Option (TPinger α) :=
  if s.pos = .crashed then none
  else
    match e with
    | .succ => some s.registerSucc
    | .fail => some s.registerFail
    | .resume ping bound => s.resume ping bound
    | .shutDown => some s.shutDown
    | .listenerDestroyed =>
      if s.destroying ≠ 0 then
        some { s with destroying := s.destroying - 1, listener := .null, destroyed := true }
      else none
    | .abort => if s.destroyed then some { s with cancelled := true } else none

/-- The pinger over any requests and shutdowns. -/
def system : System (TPinger α) TPingerEvent where
  step := step

/-- The server is started. -/
def init (arbiter : α) : TPinger α := { arbiter }

end TPinger

end Balancer
