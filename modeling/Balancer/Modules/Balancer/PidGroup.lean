import Balancer.Modules.Balancer.Draw

/-!
# The policy of predicted answer times

`modules/balancer/pidgroup.cpp`. A backend that is predicted to be slow gets a small weight, and the
weights are the probabilities of the backends.
-/

namespace Balancer

namespace PidGroup

def failAnswerTime (_answerTime : ℚ) : ℚ := 1000000

def warmCoeff : ℚ := 9999 / 10000

structure TBackEnd where
  weight : ℚ
  balanceWeight : ℚ
  data : ℚ := 1
  timeRate : TMiddleValueTracker := ⟨300000, 9 / 10⟩

namespace TBackEnd

def ofDescr (descr : TBackEndDescriptor) : TBackEnd where
  weight := descr.weight
  balanceWeight := descr.weight

def warm (b : TBackEnd) : TBackEnd := { b with data := b.data * warmCoeff }

/-- `Normalize(answerTime)` without that of the parent, whose search time is `searchTime`. -/
def normalize (searchTime answerTime : ℚ) (b : TBackEnd) : Except TFault TBackEnd := do
  let oldTime := b.timeRate.m
  let timeRate := b.timeRate.add answerTime
  let newTime := timeRate.m
  -- first order prediction + normalization
  let predicted := if 3 / 2 * newTime > oldTime then 2 * newTime - oldTime else newTime
  let data ← TFault.div (predicted + 1) (searchTime + 1)
  .ok { b with timeRate, data }

/-- `BalanceWeight_ / (Data_ + 0.0001)`. -/
def share (b : TBackEnd) : Except TFault ℚ := TFault.div b.balanceWeight (b.data + 1 / 10000)

/-- The body of the second loop in `TBackEnds::Normalize()`. -/
def weigh (sum : ℚ) (b : TBackEnd) : Except TFault TBackEnd := do
  let share ← b.share
  let weight ← TFault.div share sum
  .ok (warm { b with weight })

end TBackEnd

structure TBackEnds where
  backEnds : List TBackEnd
  searchTime : TMiddleValueTracker := ⟨1000000, 99 / 100⟩

namespace TBackEnds

/-- The constructor, on the descriptors of the configuration. -/
def ofConfig (descrs : List TBackEndDescriptor) : TBackEnds where
  backEnds := descrs.map .ofDescr

def normalize (p : TBackEnds) : Except TFault TBackEnds := do
  let shares ← p.backEnds.mapM (·.share)
  let backEnds ← p.backEnds.mapM (·.weigh shares.sum)
  .ok { p with backEnds }

/-- What both callbacks of the backend `i` do: `UpdateSearchTime(answerTime)` and
`Normalize(time)`. -/
def onRequest (i : Nat) (answerTime time : ℚ) (p : TBackEnds) : Except TFault TBackEnds := do
  let searchTime := p.searchTime.add answerTime
  let backEnds ← modifyBackEnd i (·.normalize searchTime.m time) p.backEnds
  normalize { backEnds, searchTime }

def onCompleteRequest (i : Nat) (duration : UInt64) (p : TBackEnds) : Except TFault TBackEnds :=
  p.onRequest i duration.toNat duration.toNat

def onFailRequest (i : Nat) (duration : UInt64) (p : TBackEnds) : Except TFault TBackEnds :=
  p.onRequest i duration.toNat (failAnswerTime duration.toNat)

/-- `DoNext`, with the number of the backend that it returns; `none` is a null pointer. -/
def doNext (threshold : ℚ) (p : TBackEnds) : Option Nat :=
  Walk.walk (· ≥ threshold) 0 (p.backEnds.map (·.weight))

/-- One event; a null pointer is dereferenced. -/
def step (p : TBackEnds) : TDrawEvent → Except TFault TBackEnds
  | .doNext random => if (p.doNext random).isSome then .ok p else .error .nullPointer
  | .onCompleteRequest i duration => p.onCompleteRequest i duration
  | .onFailRequest i duration => p.onFailRequest i duration

/-- One event after the other. -/
def run (p : TBackEnds) (es : List TDrawEvent) : Except TFault TBackEnds := es.foldlM step p

end TBackEnds

end PidGroup

end Balancer
