import Balancer.Modules.Balancer.Average
import Balancer.Modules.Balancer.Module

/-!
# The arbiters

`modules/balancer/arbiter.cpp`. The one that authorizes always is beside `IReAskArbiter`.
-/

namespace Balancer

/-- `AlarmValue_` is set by the constructor. -/
structure TAdditiveArbiter where
  failRate : ℚ := 0
  succSummand : ℚ := 5 / 100
  failSummand : ℚ := 1
  deriving DecidableEq

namespace TAdditiveArbiter

def alarmValue (a : TAdditiveArbiter) : ℚ := 1 / a.succSummand

def registerSucc (a : TAdditiveArbiter) : TAdditiveArbiter :=
  { a with failRate := max 0 (a.failRate - a.succSummand) }

def registerFail (a : TAdditiveArbiter) : TAdditiveArbiter :=
  { a with failRate := a.failRate + a.failSummand }

def authorize (a : TAdditiveArbiter) : Bool := a.failRate < a.alarmValue

instance : IReAskArbiter TAdditiveArbiter where
  registerSucc := registerSucc
  registerFail := registerFail
  authorize := authorize

end TAdditiveArbiter

/-- The constructor throws if `lo` is above `hi`. -/
structure TWatermarkArbiter where
  loWatermark : ℚ := 25 / 1000
  hiWatermark : ℚ := 5 / 100
  lo_le_hi : loWatermark ≤ hiWatermark
  failRate : TMiddleValueTracker := ⟨0, 99 / 100⟩
  enabled : Bool := true

namespace TWatermarkArbiter

def registerSucc (a : TWatermarkArbiter) : TWatermarkArbiter :=
  let failRate := a.failRate.add 0
  { a with failRate, enabled := a.enabled || failRate.m < a.loWatermark }

def registerFail (a : TWatermarkArbiter) : TWatermarkArbiter :=
  let failRate := a.failRate.add 1
  { a with failRate, enabled := a.enabled && !(failRate.m > a.hiWatermark) }

def authorize (a : TWatermarkArbiter) : Bool := a.enabled

instance : IReAskArbiter TWatermarkArbiter where
  registerSucc := registerSucc
  registerFail := registerFail
  authorize := authorize

end TWatermarkArbiter

end Balancer
