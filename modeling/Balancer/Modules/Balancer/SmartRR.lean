import Balancer.Modules.Balancer.Iterator
import Balancer.Modules.Balancer.Servers
import Balancer.Theory.Rounding
import Balancer.Theory.Runs

/-!
# The smart round-robin policy

`modules/balancer/smartrr.cpp`. All steps of a weight are whole numbers, so a `double` is a natural
number here, of at most 53 significant bits. `State_`, which the constructor leaves open, is 0 at
the beginning.
-/

namespace Balancer

namespace SmartRR

/-- The fields of `TBackEnd` besides `Weight_`. -/
structure TBackEnd where
  cntComplete : UInt32 := 0
  cntFail : UInt32 := 0
  state : UInt32 := 0
  deriving DecidableEq, Repr

namespace TBackEnd

def updateState (b : TBackEnd) : TBackEnd :=
  if b.state = 0 then
    if b.cntFail ≠ 0 then { cntComplete := 0, cntFail := 0, state := 1 } else b
  else if b.state = 1 then
    if b.cntFail + b.cntComplete > 10 then
      let state := if b.cntFail > b.cntComplete then 2 else if b.cntFail = 0 then 0 else b.state
      { cntComplete := 0, cntFail := 0, state }
    else b
  else if b.state = 2 then
    if b.cntFail + b.cntComplete > 10 then
      let state := if b.cntComplete = 0 then 3 else if b.cntComplete > b.cntFail then 1 else b.state
      { cntComplete := 0, cntFail := 0, state }
    else b
  else if b.state = 3 then
    if b.cntComplete ≠ 0 then { cntComplete := 0, cntFail := 0, state := 2 } else b
  else b

/-- `mul` of `IncUsageCount`. -/
def mul (b : TBackEnd) : ℕ :=
  if b.state = 1 then 2 else if b.state = 2 then 8 else if b.state = 3 then 64 else 1

/-- `WeightStep_`. -/
def weightStep : ℕ := 1

/-- The new `Weight_` of `IncUsageCount`, for the state after `UpdateState`. -/
def incWeight (b : TBackEnd) (weight : ℕ) : ℕ :=
  Rounding.nearest 53 (weight + Rounding.nearest 53 (weightStep * b.mul))

def onCompleteRequest (b : TBackEnd) : TBackEnd := { b with cntComplete := b.cntComplete + 1 }

def onFailRequest (b : TBackEnd) : TBackEnd := { b with cntFail := b.cntFail + 1 }

end TBackEnd

structure TBackEnds where
  servers : TServers ℕ
  backEnds : Nat → TBackEnd
  size : Nat

namespace TBackEnds

def empty (address : Nat ↪ Nat) : TBackEnds where
  servers := { address, weight := fun _ => 0 }
  backEnds _ := {}
  size := 0

/-- `Add(descr)`; the configured weight is not used. -/
def add (p : TBackEnds) (_descr : TBackEndDescriptor) : TBackEnds where
  servers := p.servers.add p.size 1
  backEnds := Function.update p.backEnds p.size {}
  size := p.size + 1

/-- The constructor, on the descriptors of the configuration. -/
def ofConfig (address : Nat ↪ Nat) (descrs : List TBackEndDescriptor) : TBackEnds :=
  descrs.foldl add (empty address)

/-- `DoNext`; without backends `Begin()` has no element. -/
def doNext (p : TBackEnds) : Option (Nat × TBackEnds) :=
  (p.servers.next fun b w => (p.backEnds b).updateState.incWeight w).map fun r =>
    (r.1, { p with
      servers := r.2, backEnds := Function.update p.backEnds r.1 (p.backEnds r.1).updateState })

/-- What one of the objects does when its request is over. -/
def onRequest (p : TBackEnds) (b : Nat) (f : TBackEnd → TBackEnd) : Option TBackEnds :=
  if b < p.size then some { p with backEnds := Function.update p.backEnds b (f (p.backEnds b)) }
  else none

end TBackEnds

/-- What can happen to the policy. -/
inductive TEvent where
  | doNext
  | onCompleteRequest (b : Nat)
  | onFailRequest (b : Nat)
  deriving DecidableEq, Repr

/-- The event is about one of `n` backends. -/
def TEvent.Within (n : Nat) : TEvent → Prop
  | doNext => 0 < n
  | onCompleteRequest b => b < n
  | onFailRequest b => b < n

/-- The policy, and what `DoNext` has returned so far. -/
structure TTrace where
  pool : TBackEnds
  picked : List Nat := []

/-- One event after the other, in any order. -/
def system : Runs.System TTrace TEvent where
  step t
    | .doNext => t.pool.doNext.map fun r => { pool := r.2, picked := t.picked ++ [r.1] }
    | .onCompleteRequest b =>
      (t.pool.onRequest b TBackEnd.onCompleteRequest).map fun pool => { t with pool }
    | .onFailRequest b =>
      (t.pool.onRequest b TBackEnd.onFailRequest).map fun pool => { t with pool }

/-- The beginning of a run. -/
def TTrace.configured (address : Nat ↪ Nat) (descrs : List TBackEndDescriptor) : TTrace where
  pool := .ofConfig address descrs

end SmartRR

end Balancer
