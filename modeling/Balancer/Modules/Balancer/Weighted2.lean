import Balancer.Modules.Balancer.Average
import Balancer.Modules.Balancer.Iterator
import Balancer.Util.Duration

/-!
# The weighted policy

`modules/balancer/weighted2.cpp`. `double` is taken as exact. A callback sees one time: `now` is
what all calls of `Now()` in it return. `Sum_` of a tracker, which no constructor sets, is given
from outside.
-/

namespace Balancer

namespace Weighted2

/-- The estimators of a request, by its answer time in microseconds. -/
inductive TEstimator where
  | answerTime
  | slowAnswerTime
  deriving DecidableEq, Repr

namespace TEstimator

def onCompleteRequest (e : TEstimator) (answerTime : UInt64) : ℚ :=
  match e with
  | .answerTime => if answerTime > 1000000 then 0 else 1 / (1 + answerTime.toNat / 1000000)
  | .slowAnswerTime => if answerTime > 800000 then 0 else 1

def onFailRequest (_e : TEstimator) (_answerTime : UInt64) : ℚ := 0

end TEstimator

structure TCorrectionParams where
  minWeight : ℚ := 5 / 100
  maxWeight : ℚ := 5
  plusDiffWeightPerSec : ℚ := 5 / 100
  minusDiffWeightPerSec : ℚ := 1 / 10
  historyTime : UInt64 := 20000000
  feedbackTime : UInt64 := 100000000

structure TBackEnd where
  backEnd : TBackEndDescriptor
  weight : ℚ := 1
  emergency : ℚ := 0
  qualityData : TTimeLimitedAvgTracker 1000
  lastCheckedWeight : ℚ := 1
  lastCheckedTime : TInstant

namespace TBackEnd

def addEmergency (extra : ℚ) (b : TBackEnd) : TBackEnd :=
  { b with emergency := b.emergency + extra }

/-- `Normalize(c)`. -/
def normalize (params : TCorrectionParams) (c : ℚ) (b : TBackEnd) : TBackEnd :=
  let weight := b.weight * c
  let weight := max (params.minWeight * b.backEnd.weight) weight
  let weight := min (params.maxWeight * b.backEnd.weight) weight
  { b with weight }

/-- `GetQuality()`, with the tracker that it leaves. -/
def getQuality (now : TInstant) (b : TBackEnd) : Except TFault ((ℚ × Nat) × TBackEnd) :=
  (b.qualityData.get now).map fun r => (r.1, { b with qualityData := r.2 })

/-- The new weight of `Correct` before the restrictions. -/
def corrected (params : TCorrectionParams) (newQuality : ℚ × Nat) (avgQuality curWeight : ℚ) :
    Except TFault ℚ := do
  let perSec ← TFault.div newQuality.2 (TDuration.seconds params.historyTime).toNat
  let qps := max (1 / 10) perSec
  let own ← TFault.div newQuality.1 newQuality.2
  let relative ← TFault.div own (max avgQuality (1 / 100000))
  let diff := if relative > 1 then params.plusDiffWeightPerSec else params.minusDiffWeightPerSec
  let change ← TFault.div ((relative - 1) * diff) qps
  let newWeight := curWeight * (change + 1)
  -- apply feedback
  let back ← TFault.div (1 - newWeight) (TDuration.seconds params.feedbackTime).toNat
  let back ← TFault.div back qps
  .ok (back + newWeight)

/-- The restrictions of `Correct`. -/
def restrict (params : TCorrectionParams) (b : TBackEnd) (newWeight : ℚ) : ℚ :=
  let newWeight := min newWeight
    (min (b.lastCheckedWeight * (1 + params.plusDiffWeightPerSec)) params.maxWeight)
  max newWeight (max (b.lastCheckedWeight * (1 - params.minusDiffWeightPerSec)) params.minWeight)

/-- `Correct(quality, avgQuality, curWeight)`; `quality` is only asserted about. -/
def correct (params : TCorrectionParams) (now : TInstant) (avgQuality curWeight : ℚ)
    (b : TBackEnd) : Except TFault (ℚ × TBackEnd) := do
  let r ← b.getQuality now
  let newWeight ← corrected params r.1 avgQuality curWeight
  let newWeight := r.2.restrict params newWeight
  if now - r.2.lastCheckedTime > 1000000 then
    .ok (newWeight, { r.2 with lastCheckedWeight := newWeight, lastCheckedTime := now })
  else .ok (newWeight, r.2)

end TBackEnd

structure TBackEnds where
  backEnds : List TBackEnd := []
  params : TCorrectionParams := {}
  estimator : TEstimator := .answerTime

/-- The variables of the loop in `DoNext`. -/
structure TScan where
  retval : Nat
  max : ℚ
  total : ℚ
  deriving DecidableEq

/-- The body of the loop, for the backend `b` of the number `i` after `AddEmergency`. -/
def TScan.next (s : TScan) (b : TBackEnd) (i : Nat) : TScan :=
  let total := s.total + b.weight
  if b.emergency > s.max then { retval := i, max := b.emergency, total } else { s with total }

/-- The loop over the backends from the number `i` on. -/
def TScan.loop (s : TScan) : List TBackEnd → Nat → TScan
  | [], _ => s
  | b :: bs, i => (s.next b i).loop bs (i + 1)

namespace TBackEnds

/-- `Add(descr)` at the time `now`, where the memory of the tracker holds `v`, `t` and `sum`. -/
def add (p : TBackEnds) (now : TInstant) (v : Nat → ℚ) (t : Nat → TInstant) (sum : ℚ)
    (descr : TBackEndDescriptor) : TBackEnds :=
  { p with backEnds := p.backEnds ++
      [{ backEnd := descr
         qualityData := { v, t, sum, ttl := p.params.historyTime }
         lastCheckedTime := now }] }

/-- `DoNext`, with the number of the backend that it returns. -/
def doNext (p : TBackEnds) : Option (Nat × TBackEnds) :=
  p.backEnds.head?.map fun first =>
    let backEnds := p.backEnds.map fun b => b.addEmergency b.weight
    let s := TScan.loop ⟨0, first.emergency, 0⟩ backEnds 0
    (s.retval, { p with backEnds := backEnds.modify s.retval (·.addEmergency (-s.total)) })

/-- `k` calls of `DoNext`, with what they return. -/
def run : Nat → TBackEnds → Option (List Nat × TBackEnds)
  | 0, p => some ([], p)
  | k + 1, p =>
    p.doNext.bind fun r => (run k r.2).map fun rs => (r.1 :: rs.1, rs.2)

/-- `GetAvgQuality()`, with the backends that it leaves. -/
def getAvgQuality (now : TInstant) (p : TBackEnds) : Except TFault (ℚ × TBackEnds) := do
  let rs ← p.backEnds.mapM (·.getQuality now)
  let sum := (rs.map (·.1.1)).sum
  let total := (rs.map (·.1.2)).sum
  let p := { p with backEnds := rs.map (·.2) }
  if total ≠ 0 then
    let avg ← TFault.div (max (min (total : ℚ) sum) 0) total
    .ok (avg, p)
  else .ok (1, p)

def normalize (p : TBackEnds) : Except TFault TBackEnds := do
  let sum := (p.backEnds.map (·.weight)).sum
  let startSum := (p.backEnds.map (·.backEnd.weight)).sum
  let c ← TFault.div startSum sum
  .ok { p with backEnds := p.backEnds.map (·.normalize p.params c) }

def backEnd (p : TBackEnds) (i : Nat) : Except TFault TBackEnd :=
  match p.backEnds[i]? with
  | some b => .ok b
  | none => .error .outOfBounds

/-- What both callbacks of the backend `i` do with the quality of its request: `curWeight` is what
they give to `Correct`, and `newWeight` makes `Weight_` of what it returns. -/
def onRequest (now : TInstant) (i : Nat) (quality : ℚ) (curWeight : TBackEnd → Except TFault ℚ)
    (newWeight : TBackEnd → ℚ → ℚ) (p : TBackEnds) : Except TFault TBackEnds := do
  let b ← p.backEnd i
  let qualityData ← b.qualityData.add now quality
  let avg ← getAvgQuality now { p with backEnds := p.backEnds.set i { b with qualityData } }
  let b ← avg.2.backEnd i
  let cur ← curWeight b
  let r ← b.correct p.params now avg.1 cur
  normalize { avg.2 with backEnds := avg.2.backEnds.set i { r.2 with weight := newWeight r.2 r.1 } }

def onCompleteRequest (now : TInstant) (i : Nat) (answerTime : UInt64) (p : TBackEnds) :
    Except TFault TBackEnds :=
  p.onRequest now i (p.estimator.onCompleteRequest answerTime)
    (fun b => TFault.div b.weight b.backEnd.weight) (fun b weight => weight * b.backEnd.weight)

def onFailRequest (now : TInstant) (i : Nat) (answerTime : UInt64) (p : TBackEnds) :
    Except TFault TBackEnds :=
  p.onRequest now i (p.estimator.onFailRequest answerTime) (fun b => .ok b.weight)
    (fun _ weight => weight)

end TBackEnds

/-- An entry of the configuration: parameters as it leaves them, an estimator, or a backend. -/
inductive TItem where
  | correctionParams (params : TCorrectionParams)
  | quality (estimator : TEstimator)
  | backEnd (now : TInstant) (v : Nat → ℚ) (t : Nat → TInstant) (sum : ℚ)
    (descr : TBackEndDescriptor)

def TBackEnds.parse (p : TBackEnds) : TItem → TBackEnds
  | .correctionParams params => { p with params }
  | .quality estimator => { p with estimator }
  | .backEnd now v t sum descr => p.add now v t sum descr

/-- The constructor, on the entries of the configuration. -/
def TBackEnds.ofConfig (items : List TItem) : TBackEnds := items.foldl parse {}

/-- What can happen to the policy. -/
inductive TEvent where
  | doNext
  | onCompleteRequest (now : TInstant) (i : Nat) (answerTime : UInt64)
  | onFailRequest (now : TInstant) (i : Nat) (answerTime : UInt64)

/-- One event after the other, in any order. -/
def system : Runs.System TBackEnds TEvent where
  step p
    | .doNext => p.doNext.map Prod.snd
    | .onCompleteRequest now i answerTime => (p.onCompleteRequest now i answerTime).toOption
    | .onFailRequest now i answerTime => (p.onFailRequest now i answerTime).toOption

end Weighted2

end Balancer
