import Mathlib

/-!
# Integers as text

`TSelector::Format` and `TIntParser` of `util/string/cast.cpp`, for the types from `short` to
`long long` with and without a sign, and for the bases from 2 to 16.

A value of a type is the word that holds it; `TIntegral.value` reads it. Negation and conversions
are those of the word, also for the most negative value. `IntToString` writes to the memory behind
`buf`, which is a function of the address, so that a byte outside of the buffer is as visible as one
inside.
-/

namespace Balancer

/-- The types of `DEF_INT_SPEC`, without their sign. -/
inductive TIntegralRank where
  | short
  | int
  | long
  | longLong
  deriving DecidableEq, Repr

def TIntegralRank.width : TIntegralRank → Nat
  | short => 16
  | int => 32
  | long => 64
  | longLong => 64

/-- An integer type; `isSignedInt` is `TTypeTraits<T>::IsSignedInt`. -/
structure TIntegral where
  rank : TIntegralRank
  isSignedInt : Bool
  deriving DecidableEq, Repr

namespace TIntegral

abbrev width (ty : TIntegral) : Nat := ty.rank.width

/-- The values of the type. -/
abbrev Word (ty : TIntegral) : Type := BitVec ty.width

def value (ty : TIntegral) (v : ty.Word) : ℤ := if ty.isSignedInt then v.toInt else v.toNat

def InRange (ty : TIntegral) (n : ℤ) : Prop :=
  if ty.isSignedInt then -2 ^ (ty.width - 1) ≤ n ∧ n < 2 ^ (ty.width - 1)
  else 0 ≤ n ∧ n < 2 ^ ty.width

end TIntegral

/-- `STATIC_ASSERT(1 < base && base < 17)` -/
structure TBase where
  base : Nat
  one_lt : 1 < base
  lt_seventeen : base < 17

def TBase.ten : TBase := ⟨10, by decide, by decide⟩

/-! ### Formatters -/

inductive TFormatException where
  /-- "zero length" -/
  | zeroLength
  /-- "not enough room in buffer" -/
  | notEnoughRoom
  deriving DecidableEq, Repr

abbrev TMemory := Nat → UInt8

namespace TSelector

def intToChar : List UInt8 :=
  [48, 49, 50, 51, 52, 53, 54, 55, 56, 57, 65, 66, 67, 68, 69, 70]

variable {w : Nat}

/-- The loop that writes the digits from the last one on, with the room `len` that is left: what is
left of `t`, the address behind the digits and the memory. -/
def formatLoop (base : Nat) : (len : Nat) → BitVec w → (tmp : Nat) → TMemory →
    BitVec w × Nat × TMemory
  | 0, t, tmp, mem => (t, tmp, mem)
  | len + 1, t, tmp, mem =>
    let mem := Function.update mem tmp (intToChar.getD (t % BitVec.ofNat w base).toNat 0)
    let t := t / BitVec.ofNat w base
    if t ≠ 0 ∧ len ≠ 0 then formatLoop base len t (tmp + 1) mem else (t, tmp + 1, mem)

/-- The loop that swaps the bytes from both ends. -/
def swapLoop (buf tmp : Nat) (mem : TMemory) : TMemory :=
  if buf < tmp then
    swapLoop (buf + 1) (tmp - 1) (Function.update (Function.update mem buf (mem tmp)) tmp (mem buf))
  else mem
termination_by tmp - buf

/-- `TSelector<false>::Format<base>(t, buf, len)`, with the memory that it leaves. -/
def formatUnsigned (base : Nat) (t : BitVec w) (buf len : Nat) (mem : TMemory) :
    Except TFormatException Nat × TMemory :=
  if len = 0 then (.error .zeroLength, mem)
  else
    match formatLoop base len t buf mem with
    | (t, tmp, mem) =>
      if t ≠ 0 then (.error .notEnoughRoom, mem) else (.ok (tmp - buf), swapLoop buf (tmp - 1) mem)

/-- `TSelector<true>::Format<base>(t, buf, len)` -/
def formatSigned (base : Nat) (t : BitVec w) (buf len : Nat) (mem : TMemory) :
    Except TFormatException Nat × TMemory :=
  if t.toInt < 0 then
    if len < 2 then (.error .notEnoughRoom, mem)
    else
      match formatUnsigned base (-t) (buf + 1) (len - 1) mem with
      | (.error e, mem) => (.error e, mem)
      | (.ok ret, mem) => (.ok (ret + 1), Function.update mem buf 45)
  else formatUnsigned base t buf len mem

end TSelector

/-- `IntToString<base>(t, buf, len)`, which is `FormatInt`. -/
def intToString (ty : TIntegral) (b : TBase) (t : ty.Word) (buf len : Nat) (mem : TMemory) :
    Except TFormatException Nat × TMemory :=
  if ty.isSignedInt then TSelector.formatSigned b.base t buf len mem
  else TSelector.formatUnsigned b.base t buf len mem

/-! ### Parsers -/

inductive TFromStringException where
  /-- "cannot parse empty string as number" -/
  | emptyString
  /-- "cannot parse string \"+\" as number" -/
  | plus
  /-- "unexpected symbol \"" << EscapeC(symbol) << "\" at pos " << pos << " in string " <<
  Quote(str) -/
  | unexpectedSymbol (symbol : UInt8) (pos : Nat) (str : List UInt8)
  /-- "integer overflow in string " << Quote(str) -/
  | integerOverflow (str : List UInt8)
  /-- "cannot parse zero length number" -/
  | zeroLength
  /-- "overflow" -/
  | overflow
  deriving DecidableEq, Repr

def letterToIntMap : List Nat := [
  20, 20, 20, 20, 20, 20, 20, 20, 20, 20,
  20, 20, 20, 20, 20, 20, 20, 20, 20, 20,
  20, 20, 20, 20, 20, 20, 20, 20, 20, 20,
  20, 20, 20, 20, 20, 20, 20, 20, 20, 20,
  20, 20, 20, 20, 20, 20, 20, 20, 0, 1,
  2, 3, 4, 5, 6, 7, 8, 9, 20, 20,
  20, 20, 20, 20, 20, 10, 11, 12, 13, 14,
  15, 20, 20, 20, 20, 20, 20, 20, 20, 20,
  20, 20, 20, 20, 20, 20, 20, 20, 20, 20,
  20, 20, 20, 20, 20, 20, 20, 10, 11, 12,
  13, 14, 15]

namespace TAbs

variable {w : Nat}

/-- `TAbs<unsigned type>::Max` -/
def maxUnsigned : BitVec w := BitVec.allOnes w

/-- `TAbs<signed type>::Max` -/
def maxSigned : BitVec w := BitVec.intMax w

/-- `TAbs<signed type>::Min` -/
def minSigned : BitVec w := maxUnsigned - maxSigned

end TAbs

namespace TIntParser

variable {w : Nat}

/-- The loop of `TIntParser<false>::Parse`, from the position `pos` of `begin0` on. A byte of 128 or
more is a negative `char`. -/
def parseLoop (base : Nat) (begin0 : List UInt8) :
    (pos : Nat) → List UInt8 → BitVec w → Except TFromStringException (BitVec w)
  | _, [], ret => .ok ret
  | pos, c :: rest, ret =>
    let sym : BitVec w := c.toBitVec.signExtend w
    if letterToIntMap.length ≤ sym.toNat then .error (.unexpectedSymbol c pos begin0)
    else
      let num := letterToIntMap.getD sym.toNat 0
      if base ≤ num then .error (.unexpectedSymbol c pos begin0)
      else if TAbs.maxUnsigned / BitVec.ofNat w base < ret then .error (.integerOverflow begin0)
      else
        let ret := ret * BitVec.ofNat w base
        let digit := BitVec.ofNat w num
        if TAbs.maxUnsigned - digit < ret then .error (.integerOverflow begin0)
        else parseLoop base begin0 (pos + 1) rest (ret + digit)

/-- `TIntParser<false>::Parse<T, base>(begin, end)` -/
def parseUnsigned (base : Nat) : List UInt8 → Except TFromStringException (BitVec w)
  | [] => .error .emptyString
  | c :: rest =>
    if c = 43 then
      if rest = [] then .error .plus else parseLoop base (c :: rest) 1 rest 0
    else parseLoop base (c :: rest) 0 (c :: rest) 0

/-- `TIntParser<true>::Parse<T, base>(begin, end)` -/
def parseSigned (base : Nat) : List UInt8 → Except TFromStringException (BitVec w)
  | [] => .error .zeroLength
  | c :: rest =>
    if c = 45 then do
      let ret ← parseUnsigned base rest
      if TAbs.minSigned < ret then .error .overflow else return -ret
    else do
      let ret ← parseUnsigned base (c :: rest)
      if TAbs.maxSigned < ret then .error .overflow else return ret

end TIntParser

/-- `IntFromString<T, base>(data, len)`, which is `ParseInt`. -/
def intFromString (ty : TIntegral) (b : TBase) (data : List UInt8) :
    Except TFromStringException ty.Word :=
  if ty.isSignedInt then TIntParser.parseSigned b.base data
  else TIntParser.parseUnsigned b.base data

/-! ### Streams -/

/-- `Out<type>` of `DEF_CONV_NUM` in `util/stream/output.cpp`: what is written to the stream. The
buffer of 256 bytes is not initialised, `mem` is what it holds. -/
def outNumber (ty : TIntegral) (p : ty.Word) (mem : TMemory) :
    Except TFormatException (List UInt8) :=
  match intToString ty .ten p 0 256 mem with
  | (.error e, _) => .error e
  | (.ok len, mem) => .ok ((List.range len).map mem)

end Balancer
