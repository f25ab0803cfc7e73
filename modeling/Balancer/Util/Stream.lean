import Mathlib

/-!
# Size lines in `util`

`util/stream/input.cpp` and `util/stream/chunk.cpp`: the other decoder of chunked bodies in the
source tree, `TChunkedInput`, takes the size line of a chunk from its stream as a string and parses
that. The stream is the bytes that are still to come from it, as it is read one character at a time;
an exception is its text.
-/

namespace Balancer

namespace TInputStream

/-- `ReadTo(st, to)` after a first character could be read: the string and what is left. -/
def readTo (ch : UInt8) : List UInt8 → List UInt8 × List UInt8
  | [] => ([], [])
  | b :: bs => if b = ch then ([], bs) else (b :: (readTo ch bs).1, (readTo ch bs).2)

/-- `ReadLine()` -/
def readLine (xs : List UInt8) : Except String (List UInt8 × List UInt8) :=
  if xs = [] then .error "can not read line from stream"
  else
    let (st, rest) := readTo 10 xs
    .ok (if st.getLast? = some 13 then st.dropLast else st, rest)

end TInputStream

namespace TChunkedInput

/-- `isspace(ch)` -/
def isSpace (ch : UInt8) : Bool := ch == 32 || (9 ≤ ch && ch ≤ 13)

/-- The loop of `ParseHex(s)`. -/
def parseHexLoop (s : List UInt8) (ret : Nat) : List UInt8 → Except String Nat
  | [] => .ok ret
  | ch :: cs =>
    if 48 ≤ ch ∧ ch ≤ 57 then parseHexLoop s ((ret * 16 + (ch.toNat - 48)) % 2 ^ 64) cs
    else if 97 ≤ ch ∧ ch ≤ 102 then parseHexLoop s ((ret * 16 + (10 + ch.toNat - 97)) % 2 ^ 64) cs
    else if 65 ≤ ch ∧ ch ≤ 70 then parseHexLoop s ((ret * 16 + (10 + ch.toNat - 65)) % 2 ^ 64) cs
    else if ch = 59 then .ok ret
    else if isSpace ch then parseHexLoop s ret cs
    else .error ("can not parse chunk length(" ++
      String.ofList (s.map fun b => Char.ofNat b.toNat) ++ ")")

def parseHex (s : List UInt8) : Except String Nat :=
  if s = [] then .error "can not parse chunk length(empty string)" else parseHexLoop s 0 s

/-- How `ProceedToNextChunk()` gets the size of the next chunk; an empty line before it is what is
left of the chunk before. -/
def nextChunkLength (xs : List UInt8) : Except String (Nat × List UInt8) := do
  let (len, xs) ← TInputStream.readLine xs
  let (len, xs) ← if len = [] then TInputStream.readLine xs else .ok (len, xs)
  let pending ← parseHex len
  return (pending, xs)

end TChunkedInput

end Balancer
