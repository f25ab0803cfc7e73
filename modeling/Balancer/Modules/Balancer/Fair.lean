import Balancer.Modules.Balancer.Draw

/-!
# The fair policy

`modules/balancer/fair.cpp`. A backend is drawn the less, the longer it takes and the more it fails.
-/

namespace Balancer

namespace Fair

structure TBackEnd where
  backEnd : TBackEndDescriptor
  answerTime : TMedianTracker 100 := {}
  failures : TMiddleValueTracker := ⟨1, 85 / 100⟩
  weight : ℚ

namespace TBackEnd

/-- `CalcWeight()`. -/
def calcWeight (backEnd : TBackEndDescriptor) (answerTime : TMedianTracker 100)
    (failures : TMiddleValueTracker) : Except TFault ℚ := do
  let t ← answerTime.get 90
  TFault.div 1000000 (1 + backEnd.weight * t * (1 + failures.m))

/-- The constructor. -/
def ofDescr (backEnd : TBackEndDescriptor) : Except TFault TBackEnd := do
  let weight ← calcWeight backEnd {} ⟨1, 85 / 100⟩
  .ok { backEnd, weight }

def reCalcWeight (b : TBackEnd) : Except TFault TBackEnd := do
  let weight ← calcWeight b.backEnd b.answerTime b.failures
  .ok { b with weight }

def onCompleteRequest (duration : UInt64) (b : TBackEnd) : Except TFault TBackEnd := do
  let answerTime ← b.answerTime.add duration.toNat
  reCalcWeight { b with answerTime, failures := b.failures.add 0 }

def onFailRequest (b : TBackEnd) : Except TFault TBackEnd :=
  reCalcWeight { b with failures := b.failures.add 10 }

end TBackEnd

/-- `List_`. -/
abbrev TBackEnds := List TBackEnd

namespace TBackEnds

/-- The constructor, on the descriptors of the configuration. -/
def ofConfig (descrs : List TBackEndDescriptor) : Except TFault TBackEnds :=
  descrs.mapM TBackEnd.ofDescr

/-- `DoNext`, with the number of the backend that it returns. -/
def doNext (random : ℚ) (p : TBackEnds) : Except TFault Nat :=
  let weights := p.map (·.weight)
  let rnd := random * weights.sum
  match Walk.walk (· > rnd) 0 weights with
  | some i => .ok i
  | none => .error .aborted

def step (p : TBackEnds) : TDrawEvent → Except TFault TBackEnds
  | .doNext random => (doNext random p).map fun _ => p
  | .onCompleteRequest i duration => modifyBackEnd i (·.onCompleteRequest duration) p
  | .onFailRequest i _ => modifyBackEnd i (·.onFailRequest) p

/-- One event after the other. -/
def run (p : TBackEnds) (es : List TDrawEvent) : Except TFault TBackEnds := es.foldlM step p

end TBackEnds

end Fair

end Balancer
