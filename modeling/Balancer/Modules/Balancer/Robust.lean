import Balancer.Modules.Balancer.Draw

/-!
# The robust policy

`modules/balancer/robust.cpp`. The answer times and the successes of all backends are measured
together, and a request moves the weight of its backend by what it changes in them. `Fail_` and
`Succ_`, which the constructor leaves open, are 0 at the beginning.
-/

namespace Balancer

namespace Robust

/-- `TMedTr::M()`. -/
def medM (tr : TMedianTracker 300) : Except TFault Nat := tr.get 90

structure TBackEnd where
  weight : ℚ
  initialWeight : ℚ
  fail : UInt64 := 0
  succ : UInt64 := 0

namespace TBackEnd

def ofDescr (descr : TBackEndDescriptor) : TBackEnd where
  weight := descr.weight
  initialWeight := descr.weight

def normalize (c : ℚ) (b : TBackEnd) : TBackEnd := { b with weight := b.weight * c }

def requestCount (b : TBackEnd) : UInt64 := b.fail + b.succ

def smooth (b : TBackEnd) (x : ℚ) : ℚ :=
  let rc := b.requestCount
  if rc > 1000 then x else rc.toNat * x / 1000

/-- `AdjustByError(val)`, with the tracker that it leaves; `val` is 1 or 0. -/
def adjustByError (val : Bool) (sr : TMiddleValueTracker) (b : TBackEnd) :
    Except TFault (TMiddleValueTracker × TBackEnd) := do
  let prev := b.smooth sr.m
  let sr := sr.add (if val then 1 else 0)
  let next := b.smooth sr.m
  let change ← TFault.div (1 / 100 + next) (1 / 100 + prev)
  if val then
    let back ← TFault.div (1 / 100 * (b.initialWeight - b.weight))
        (b.weight + b.initialWeight * (1 / 10000))
    .ok (sr, { b with weight := b.weight * (change * (1 + back)) })
  else .ok (sr, { b with weight := b.weight * change })

def step (b : TBackEnd) : TBackEnd :=
  let al : ℚ := 9999 / 10000
  { b with weight := al * b.weight + (1 - al) * b.initialWeight }

end TBackEnd

/-- `Count_` is the length of the list. -/
structure TBackEnds where
  list : List TBackEnd
  tr : TMedianTracker 300 := {}
  sr : TMiddleValueTracker := ⟨1, 95 / 100⟩

namespace TBackEnds

/-- The constructor, on the descriptors of the configuration. -/
def ofConfig (descrs : List TBackEndDescriptor) : TBackEnds where
  list := descrs.map .ofDescr

def backEnd (p : TBackEnds) (i : Nat) : Except TFault TBackEnd :=
  match p.list[i]? with
  | some b => .ok b
  | none => .error .outOfBounds

def onCompleteRequest (i : Nat) (duration : UInt64) (p : TBackEnds) : Except TFault TBackEnds := do
  let b ← p.backEnd i
  let before ← medM p.tr
  let tr ← p.tr.add duration.toNat
  let after ← medM tr
  let change ← TFault.div (1 + b.smooth before) (1 + b.smooth after)
  let b := { b with succ := b.succ + 1, weight := b.weight * change }
  let r ← b.adjustByError true p.sr
  .ok { list := p.list.set i r.2, tr, sr := r.1 }

def onFailRequest (i : Nat) (p : TBackEnds) : Except TFault TBackEnds := do
  let b ← p.backEnd i
  let b := { b with fail := b.fail + 1 }
  let r ← b.adjustByError false p.sr
  .ok { p with list := p.list.set i r.2, sr := r.1 }

/-- `DoNext`, with the number of the backend that it returns. -/
def doNext (random : ℚ) (p : TBackEnds) : Except TFault (Nat × TBackEnds) := do
  let list := p.list.map (·.step)
  let sum ← TFault.div p.list.length (list.map (·.weight)).sum
  let list := list.map (·.normalize sum)
  let rnd := random * p.list.length
  match Walk.walk (· > rnd) 0 (list.map (·.weight)) with
  | some i => .ok (i, { p with list })
  | none => .error .aborted

def step (p : TBackEnds) : TDrawEvent → Except TFault TBackEnds
  | .doNext random => (p.doNext random).map Prod.snd
  | .onCompleteRequest i duration => p.onCompleteRequest i duration
  | .onFailRequest i _ => p.onFailRequest i

/-- One event after the other. -/
def run (p : TBackEnds) (es : List TDrawEvent) : Except TFault TBackEnds := es.foldlM step p

end TBackEnds

end Robust

end Balancer
