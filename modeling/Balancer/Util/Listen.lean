import Balancer.Theory.Runs
import Balancer.Util.Green

/-!
# The listener

`util/server/listen.cpp`: the coroutine that accepts connections, with `TCont::AcceptD` of
`util/green/impl.h`. A turn is one call of `accept` with what the loops of `AcceptD` and `Run` do
with its result. The callbacks of the server run in the coroutine of the listener and do not switch;
they may do anything to the executor otherwise, and whether they throw makes no difference to the
loop.
-/

namespace Balancer

open Runs

/-- The result of `Accept4`: a descriptor, or the error that it leaves behind. -/
abbrev TAccept4 := Except Int Nat

/-- How a turn of the loop of `AcceptD` ends: it returns, or `PollD` has switched to the
scheduler. -/
inductive TAcceptD where
  | returned (res : Int)
  | switched (e : TContExecutor)
  deriving DecidableEq, Repr

def acceptD (r : TAccept4) (e : TContExecutor) : TAcceptD :=
  match r with
  | .ok fd => .returned fd
  | .error err =>
    if isBlocked err then
      match e.executeEvent with
      | .returned err => .returned (-err)
      | .switched e => .switched e
    else .returned (-err)

/-- `OnAcceptFull` and `OnError`. -/
structure TListenCallBack where
  onAcceptFull : Int → TContExecutor → TContExecutor
  onError : TContExecutor → TContExecutor

/-- The listener with the executor; `calls` counts the calls of `accept`. -/
structure TOneSocketListener where
  calls : Nat := 0
  done : Bool := false
  e : TContExecutor

namespace TOneSocketListener

variable (cb : TListenCallBack)

/-- What `Run` does with the result of `AcceptI`. -/
def onAccept (l : TOneSocketListener) (res : Int) : Turn Unit TOneSocketListener :=
  if res < 0 then
    if -res ≠ ECONNABORTED then
      if -res = ECANCELED then .exit () l
      else .again { l with e := cb.onError l.e }
    else .again l
  else .again { l with e := cb.onAcceptFull res l.e }

/-- A turn, when the results of `accept` are `accept`. -/
def run (accept : Nat → TAccept4) (l : TOneSocketListener) : Turn Unit TOneSocketListener :=
  if l.done then .exit () l
  else
    match acceptD (accept l.calls) l.e with
    | .returned res => onAccept cb { l with calls := l.calls + 1 } res
    | .switched e => .switch { l with calls := l.calls + 1, e }

end TOneSocketListener

end Balancer
