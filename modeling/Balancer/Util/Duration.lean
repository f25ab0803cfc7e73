import Balancer.Theory.RepeatedSquaring
import Balancer.Util.Cast

/-!
# Reading and writing a duration

`TDurationParser` of `util/datetime/parser.rl` and `parser.h`, with the machine that it describes
written out as a transition table:

    duration = integer fraction? multiplier;

The digits of a fraction are read by `digit {1,6}` and by `digit*` at once, where the latter has no
actions; so the first six of them are counted and the others are skipped. `Power` is `__power` of
STLport's `_numeric.c`; where it does not return within `fuel` turns of a loop, there is no result.
A `TDuration` is its microseconds, and `Out<TDuration>` of `util/datetime/base.cpp` writes it in
seconds.
-/

namespace Balancer

/-- The actions of the machine, and `MultiplierPower = p`. -/
inductive TDurationAction where
  | clearInt
  | updateInt
  | integerPart
  | fractionPart
  | multiplierPower (p : Int32)
  deriving DecidableEq

/-- The states of the machine (`cs`). The error state is the absence of a transition. -/
inductive TDurationState where
  | start
  /-- Inside `integer`. -/
  | integer
  /-- After the point. -/
  | point
  /-- After so many digits of `digit {1,6}`. -/
  | fraction (digits : Nat)
  /-- After the first letter of `ms`, `us` and `ns`. -/
  | milli
  | micro
  | nano
  /-- After the last letter. -/
  | unit
  deriving DecidableEq, Repr

namespace TDurationState

/-- `cs >= TDurationParser_first_final` -/
def isFinal : TDurationState → Bool
  | integer | fraction _ | unit => true
  | _ => false

/-- `digit` -/
def isDigit (c : UInt8) : Bool := 48 ≤ c && c ≤ 57

/-- The transitions that enter `multiplier`. -/
def enterMultiplier (c : UInt8) : Option (TDurationState × List TDurationAction) :=
  if c = 115 then some (unit, [.multiplierPower 6])
  else if c = 109 then some (milli, [])
  else if c = 117 then some (micro, [])
  else if c = 110 then some (nano, [])
  else none

def transition : TDurationState → UInt8 → Option (TDurationState × List TDurationAction)
  | start, c => if isDigit c then some (integer, [.clearInt, .updateInt, .integerPart]) else none
  | integer, c =>
    if isDigit c then some (integer, [.updateInt, .integerPart])
    else if c = 46 then some (point, [])
    else enterMultiplier c
  | point, c =>
    if isDigit c then some (fraction 1, [.clearInt, .updateInt, .fractionPart]) else none
  | fraction digits, c =>
    if isDigit c then
      if digits < 6 then some (fraction (digits + 1), [.updateInt, .fractionPart])
      else some (fraction digits, [])
    else enterMultiplier c
  | milli, c => if c = 115 then some (unit, [.multiplierPower 3]) else none
  | micro, c => if c = 115 then some (unit, [.multiplierPower 0]) else none
  | nano, c => if c = 115 then some (unit, [.multiplierPower (-3)]) else none
  | unit, _ => none

end TDurationState

structure TDurationParser where
  cs : TDurationState := .start
  i : UInt64 := 0
  dc : UInt32 := 0
  multiplierPower : Int32 := 6
  integerPart : UInt64 := 0
  fractionPart : UInt32 := 0
  fractionDigits : UInt32 := 0

/-- `Power(base, power)` -/
def durationPower (fuel : Nat) (base : UInt64) (power : Int32) : Option UInt64 :=
  RepeatedSquaring.power fuel base power.toInt

namespace TDurationParser

def act (c : UInt8) (p : TDurationParser) : TDurationAction → TDurationParser
  | .clearInt => { p with i := 0, dc := 0 }
  | .updateInt => { p with i := p.i * 10 + (c - 48).toUInt64, dc := p.dc + 1 }
  | .integerPart => { p with integerPart := p.i }
  | .fractionPart => { p with fractionPart := p.i.toUInt32, fractionDigits := p.dc }
  | .multiplierPower power => { p with multiplierPower := power }

def step (p : TDurationParser) (c : UInt8) : Option TDurationParser :=
  match p.cs.transition c with
  | none => none
  | some (cs, actions) => some { actions.foldl (act c) p with cs }

/-- `ParsePart(input, len)`; it is `none` when it returns false. -/
def parsePart (p : TDurationParser) (input : List UInt8) : Option TDurationParser :=
  input.foldlM step p

/-- `GetResult(defaultValue)`. The second exponent is computed without a sign. -/
def getResult (fuel : Nat) (p : TDurationParser) (defaultValue : UInt64) : Option UInt64 :=
  if p.cs.isFinal then do
    let integer ← durationPower fuel 10 p.multiplierPower
    let fraction ← durationPower fuel 10 (p.multiplierPower.toUInt32 - p.fractionDigits).toInt32
    return 0 + p.integerPart * integer + p.fractionPart.toUInt64 * fraction
  else some defaultValue

end TDurationParser

namespace TDuration

def Max : UInt64 := 18446744073709551615

/-- `Parse<TDurationParser, TDuration>(input, len, defaultValue)` -/
def parseOr (fuel : Nat) (input : List UInt8) (defaultValue : UInt64) : Option UInt64 :=
  match ({} : TDurationParser).parsePart input with
  | none => some defaultValue
  | some p => p.getResult fuel defaultValue

/-- `TDuration::Parse(input)`: the microseconds, or what is thrown. -/
def parse (fuel : Nat) (input : List UInt8) : Option (Except String UInt64) := do
  let r ← parseOr fuel input Max
  return if r = Max then .error "error in datetime parsing" else .ok r

def microSeconds (d : UInt64) : UInt64 := d

def milliSeconds (d : UInt64) : UInt64 := microSeconds d / 1000

def seconds (d : UInt64) : UInt64 := milliSeconds d / 1000

def microSecondsOfSecond (d : UInt64) : UInt32 := (microSeconds d % 1000000).toUInt32

/-- `Printf(os, "%06d", n)`: six characters at least, with zeros behind the sign. -/
def printf06d (n : Int32) : List UInt8 :=
  let sign := if n < 0 then [45] else []
  let digits := (Nat.digits 10 n.toInt.natAbs).reverse.map fun d => UInt8.ofNat (48 + d)
  sign ++ List.replicate (6 - sign.length - digits.length) 48 ++ digits

/-- `Out<TDuration>(os, duration)`: what is written to the stream. -/
def out (duration : UInt64) (mem : TMemory) : Except TFormatException (List UInt8) := do
  let text ← outNumber ⟨.longLong, false⟩ (seconds duration).toBitVec mem
  return text ++ [46] ++ printf06d (microSecondsOfSecond duration).toInt32 ++ [115]

end TDuration

end Balancer
