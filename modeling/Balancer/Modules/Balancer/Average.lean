import Balancer.Theory.Fallible
import Balancer.Util.Wait

/-!
# What the policies measure

`modules/balancer/average.h` and `deviation.h`. `double` is taken as exact. An operation that the
language leaves undefined ends in a `TFault`, so that a result says that there was none.
-/

namespace Balancer

/-- What a policy must not run into. -/
inductive TFault where
  | outOfBounds
  | uninitialized
  | divByZero
  | intOverflow
  | nullPointer
  | aborted
  deriving DecidableEq, Repr

/-- `l / r` for doubles. -/
def TFault.div (l r : ℚ) : Except TFault ℚ := if r = 0 then .error .divByZero else .ok (l / r)

namespace TFault

theorem div_of_ne {l r : ℚ} (h : r ≠ 0) : div l r = .ok (l / r) := if_neg h

end TFault

/-! ### `TTimeLimitedAvgTracker` -/

/-- The arrays are functions of the slot; they have `N` slots. -/
structure TTimeLimitedAvgTracker (N : Nat) where
  v : Nat → ℚ
  t : Nat → TInstant
  cur : Nat := 0
  total : Nat := 0
  sum : ℚ
  ttl : UInt64

namespace TTimeLimitedAvgTracker

variable {N : Nat}

/-- `Add(v)` at the time `now`. -/
def add (now : TInstant) (v : ℚ) (s : TTimeLimitedAvgTracker N) :
    Except TFault (TTimeLimitedAvgTracker N) :=
  if s.total = N then
    if s.cur < N then
      .ok { s with
        sum := s.sum + v - s.v s.cur
        v := Function.update s.v s.cur v
        t := Function.update s.t s.cur now
        cur := (s.cur + 1) % N }
    else .error .outOfBounds
  else
    let l := (s.cur + s.total) % N
    if l < N then
      .ok { s with
        v := Function.update s.v l v
        t := Function.update s.t l now
        sum := s.sum + v
        total := s.total + 1 }
    else .error .outOfBounds

/-- The loop of `Check()`, which counts `Total_` down. -/
def checkLoop (now : TInstant) :
    Nat → TTimeLimitedAvgTracker N → Except TFault (TTimeLimitedAvgTracker N)
  | 0, s => .ok s
  | total + 1, s =>
    if s.cur < N then
      if now - s.t s.cur > s.ttl then
        checkLoop now total { s with
          sum := s.sum - s.v s.cur, total := total, cur := (s.cur + 1) % N }
      else .ok s
    else .error .outOfBounds

def check (now : TInstant) (s : TTimeLimitedAvgTracker N) :
    Except TFault (TTimeLimitedAvgTracker N) :=
  checkLoop now s.total s

/-- `Get()` at the time `now`, with the tracker that it leaves. -/
def get (now : TInstant) (s : TTimeLimitedAvgTracker N) :
    Except TFault ((ℚ × Nat) × TTimeLimitedAvgTracker N) :=
  (s.check now).map fun s => ((s.sum, s.total), s)

/-- A call, with the time of it. -/
inductive TCall where
  | add (now : TInstant) (v : ℚ)
  | get (now : TInstant)

namespace TCall

def time : TCall → TInstant
  | add now _ => now
  | get now => now

/-- What the call adds. -/
def added : TCall → Option (ℚ × TInstant)
  | add now v => some (v, now)
  | get _ => none

def exec (s : TTimeLimitedAvgTracker N) : TCall → Except TFault (TTimeLimitedAvgTracker N)
  | add now v => s.add now v
  | get now => (s.get now).map Prod.snd

end TCall

/-- One call after the other. -/
def run (s : TTimeLimitedAvgTracker N) (calls : List TCall) :
    Except TFault (TTimeLimitedAvgTracker N) :=
  calls.foldlM TCall.exec s

end TTimeLimitedAvgTracker

/-! ### `TMedianTracker` -/

/-- `none` is a slot of `V_` that was not written. `n` is `N_`. -/
structure TMedianTracker (N : Nat) where
  v : Nat → Option ℚ := fun _ => none
  c : Nat := 0
  n : Nat := 0

namespace TMedianTracker

variable {N : Nat}

def add (x : ℚ) (s : TMedianTracker N) : Except TFault (TMedianTracker N) :=
  if s.c < N then
    .ok { v := Function.update s.v s.c (some x), c := (s.c + 1) % N, n := (s.n + 1) % 2 ^ 64 }
  else .error .outOfBounds

/-- A read of a slot that should hold a value. -/
def read (x : Option ℚ) : Except TFault ℚ :=
  match x with
  | some x => .ok x
  | none => .error .uninitialized

/-- `n * filled / 100` in `size_t`. -/
def position (n filled : Nat) : Nat := n * filled % 2 ^ 64 / 100

/-- `l - f` in `size_t`. -/
def width (f l : Nat) : Nat := (2 ^ 64 + l - f) % 2 ^ 64

/-- `(size_t)Max((int)pos - 2, 0)`. -/
def first (pos : Nat) : Except TFault Nat :=
  let p := Int.bmod pos (2 ^ 32) - 2
  if p < -2 ^ 31 then .error .intOverflow else .ok (max p 0).toNat

/-- `(size_t)x` for a double. -/
def toSize (x : ℚ) : Except TFault Nat :=
  if 0 ≤ x ∧ x < 2 ^ 64 then .ok ⌊x⌋₊ else .error .intOverflow

/-- `Get(n)`. The copy `VC_` is sorted and read from `f` to `l`. -/
def get (n : Nat) (s : TMedianTracker N) : Except TFault Nat :=
  let filled := min s.n N
  if filled = 0 then .ok 0
  else do
    let copy ← (List.range filled).mapM fun i => read (s.v i)
    let vc := copy.mergeSort (· ≤ ·)
    let pos := position n filled
    let f ← first pos
    let l := min (pos + 3) filled
    let values ← (List.range' f (l - f)).mapM fun i => read vc[i]?
    let mean ← TFault.div values.sum (width f l)
    toSize mean

/-- One sample after the other. -/
def ofSamples (N : Nat) (samples : List ℚ) : Except TFault (TMedianTracker N) :=
  samples.foldlM (fun s x => s.add x) {}

end TMedianTracker

/-! ### `TMiddleValueTracker` -/

structure TMiddleValueTracker where
  s : ℚ
  coeff : ℚ

namespace TMiddleValueTracker

def add (val : ℚ) (m : TMiddleValueTracker) : TMiddleValueTracker :=
  { m with s := m.coeff * m.s + (1 - m.coeff) * val }

def m (m : TMiddleValueTracker) : ℚ := m.s

/-- The mean of values that are not negative, with a coefficient that stays the same. -/
theorem add_nonneg {coeff val : ℚ} {m : TMiddleValueTracker} (hcoeff : m.coeff = coeff)
    (h0 : 0 ≤ coeff) (h1 : coeff ≤ 1) (hs : 0 ≤ m.s) (hval : 0 ≤ val) :
    0 ≤ (m.add val).s ∧ (m.add val).coeff = coeff := by
  refine ⟨?_, hcoeff⟩
  show 0 ≤ m.coeff * m.s + (1 - m.coeff) * val
  rw [hcoeff]
  have hold := mul_nonneg h0 hs
  have hnew := mul_nonneg (sub_nonneg.2 h1) hval
  linarith

end TMiddleValueTracker

end Balancer
