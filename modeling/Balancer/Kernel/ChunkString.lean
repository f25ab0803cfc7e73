import Balancer.Kernel.Chunks
import Balancer.Theory.Runs

/-!
# Strings of chunks

`TChunkString` of `kernel/chunkstring.h`, and the comparison of a chunk list with a string of
`kernel/chunks.h`.

An iterator is a place in the ring of the chunk list, where `End_` stands behind the last chunk, and
an offset. What the code reads as the chunk of `End_` lies behind the list: `junk` are its bytes.
-/

namespace Balancer

/-- `memcmp` on two ranges of the same length, as the standard describes it: bytes are compared
without a sign. -/
structure TMemcmp where
  compare : List UInt8 → List UInt8 → ℤ
  neg_iff : ∀ x y, x.length = y.length → (compare x y < 0 ↔ x < y)
  eq_zero_iff : ∀ x y, x.length = y.length → (compare x y = 0 ↔ x = y)

instance : Inhabited TMemcmp where
  default := {
    compare x y := if x < y then -1 else if x = y then 0 else 1
    neg_iff x y _ := by grind
    eq_zero_iff x y _ := by grind [List.lt_irrefl] }

/-- `memchr` from the offset `off` of `data` on, for `n` bytes: the offset of the first `c`. -/
def memchr (data : List UInt8) (c : UInt8) (off n : Nat) : Option Nat :=
  (((data.drop off).take n).idxOf? c).map (off + ·)

abbrev TChunkString := TChunkList

namespace TChunkString

/-! ### Iterators -/

/-- `TBaseIterator`: `Chunk_` is a place in the ring of the list. -/
structure TIterator where
  chunk : Nat
  indexWithinChunk : Nat
  deriving DecidableEq, Repr

variable (lst : TChunkString) (junk : TChunk)

/-- `*Chunk_` -/
def chunkAt (chunk : Nat) : TChunk := lst.getD chunk junk

/-- `++Chunk_` -/
def nextChunk (chunk : Nat) : Nat := if chunk = lst.length then 0 else chunk + 1

/-- `--Chunk_` -/
def prevChunk (chunk : Nat) : Nat := if chunk = 0 then lst.length else chunk - 1

def begin : TIterator := ⟨0, 0⟩

def endIterator : TIterator := ⟨lst.length, 0⟩

namespace TIterator

/-- `Next(cnt)`, with at most `fuel` turns of the loop. -/
def nextBy : (fuel : Nat) → TIterator → (cnt : Nat) → Option TIterator
  | 0, _, _ => none
  | fuel + 1, it, cnt =>
    if 0 < cnt then
      let chunkLeft := (chunkAt lst junk it.chunk).length - it.indexWithinChunk
      if chunkLeft ≤ cnt then nextBy fuel ⟨nextChunk lst it.chunk, 0⟩ (cnt - chunkLeft)
      else nextBy fuel ⟨it.chunk, it.indexWithinChunk + cnt⟩ 0
    else some it

/-- The loop of `Prev(cnt)` and what is behind it. -/
def prevLoop : (fuel : Nat) → (chunk chunkLeft cnt : Nat) → Option TIterator
  | 0, _, _, _ => none
  | fuel + 1, chunk, chunkLeft, cnt =>
    if chunkLeft ≤ cnt then
      let chunk := prevChunk lst chunk
      prevLoop fuel chunk (chunkAt lst junk chunk).length (cnt - chunkLeft)
    else if chunkLeft < cnt then some ⟨chunk, 0⟩
    else some ⟨chunk, chunkLeft - 1 - cnt⟩

/-- `Prev(cnt)` -/
def prevBy (fuel : Nat) (it : TIterator) (cnt : Nat) : Option TIterator :=
  prevLoop lst junk fuel it.chunk (it.indexWithinChunk + 1) cnt

/-- `Next()` -/
def next (it : TIterator) : TIterator :=
  if (chunkAt lst junk it.chunk).length ≤ it.indexWithinChunk + 1 then ⟨nextChunk lst it.chunk, 0⟩
  else ⟨it.chunk, it.indexWithinChunk + 1⟩

/-- `Prev()` -/
def prev (it : TIterator) : TIterator :=
  if it.indexWithinChunk = 0 then
    let chunk := prevChunk lst it.chunk
    ⟨chunk, (chunkAt lst junk chunk).length - 1⟩
  else ⟨it.chunk, it.indexWithinChunk - 1⟩

/-- The conversion of an `int` to `size_t`. -/
def toSize (off : Int32) : Nat := off.toInt64.toUInt64.toNat

/-- `operator+= (int off)` -/
def addInt (fuel : Nat) (it : TIterator) (off : Int32) : Option TIterator :=
  if 0 < off then it.nextBy lst junk fuel (toSize off) else it.prevBy lst junk fuel (toSize (-off))

/-- `operator-= (int off)` -/
def subInt (fuel : Nat) (it : TIterator) (off : Int32) : Option TIterator :=
  if 0 < off then it.prevBy lst junk fuel (toSize off) else it.nextBy lst junk fuel (toSize (-off))

/-- `operator* ()` -/
def deref (it : TIterator) : Option UInt8 := (chunkAt lst junk it.chunk)[it.indexWithinChunk]?

end TIterator

/-! ### Cutting and searching -/

/-- `CutFront(cutEnd)` -/
def cutFront (cutEnd : TIterator) : TChunkString :=
  if cutEnd.indexWithinChunk = 0 then lst.drop cutEnd.chunk
  else
    let chunk := chunkAt lst junk cutEnd.chunk
    let newBegin := chunk.subChunk cutEnd.indexWithinChunk chunk.length
    let rest := lst.drop (nextChunk lst cutEnd.chunk)
    if 0 < newBegin.length then newBegin :: rest else rest

/-- `CutBack(cutBegin)` -/
def cutBack (cutBegin : TIterator) : TChunkString :=
  if cutBegin.indexWithinChunk = 0 then lst.take cutBegin.chunk
  else
    let newEnd := (chunkAt lst junk cutBegin.chunk).subChunk 0 cutBegin.indexWithinChunk
    let rest := lst.take cutBegin.chunk
    if 0 < newEnd.length then rest ++ [newEnd] else rest

/-- The loop of `FindImpl`: the place where it stops and what has been found there. -/
def findLoop (c : UInt8) (last : Nat) : (fuel : Nat) → (chunk : Nat) → Option (Nat × Option Nat)
  | 0, _ => none
  | fuel + 1, chunk =>
    let chunk := nextChunk lst chunk
    if chunk = last then some (chunk, none)
    else
      match memchr (chunkAt lst junk chunk) c 0 (chunkAt lst junk chunk).length with
      | some i => some (chunk, some i)
      | none => findLoop c last fuel chunk

/-- `FindImpl(c, begin, end)` -/
def findImpl (fuel : Nat) (c : UInt8) (first last : TIterator) : Option TIterator :=
  let data := chunkAt lst junk first.chunk
  if first.chunk = last.chunk then
    match memchr data c first.indexWithinChunk (last.indexWithinChunk - first.indexWithinChunk) with
    | some i => some ⟨first.chunk, i⟩
    | none => some last
  else
    match memchr data c first.indexWithinChunk (data.length - first.indexWithinChunk) with
    | some i => some ⟨first.chunk, i⟩
    | none =>
      match findLoop lst junk c last.chunk fuel first.chunk with
      | none => none
      | some (chunk, some i) => some ⟨chunk, i⟩
      | some (chunk, none) =>
        match memchr (chunkAt lst junk last.chunk) c 0 last.indexWithinChunk with
        | some i => some ⟨chunk, i⟩
        | none => some last

/-! ### Comparisons -/

/-- `Compare(other)` -/
def compare (m : TMemcmp) : TChunkString → List UInt8 → ℤ
  | [], other => if 0 < other.length then -1 else 0
  | chunk :: lst, other =>
    if other.length < chunk.length then
      let res := m.compare (chunk.take other.length) other
      if res = 0 then 1 else res
    else
      let res := m.compare chunk (other.take chunk.length)
      if res ≠ 0 then res else compare m lst (other.drop chunk.length)

/-- `StartsWith(prefix)` -/
def startsWith (m : TMemcmp) : TChunkString → List UInt8 → Bool
  | _, [] => true
  | [], _ :: _ => false
  | chunk :: lst, other =>
    let len := min chunk.length other.length
    if m.compare (chunk.take len) (other.take len) ≠ 0 then false
    else startsWith m lst (other.drop len)

end TChunkString

/-- The loop of `operator== (const TChunkList& l, const TStringBuf& r)` -/
def TChunkList.equalLoop (m : TMemcmp) : TChunkList → List UInt8 → Bool
  | [], _ => true
  | c :: l, b =>
    if m.compare c (b.take c.length) ≠ 0 then false else equalLoop m l (b.drop c.length)

/-- `operator== (const TChunkList& l, const TStringBuf& r)` -/
def TChunkList.equal (m : TMemcmp) (l : TChunkList) (r : List UInt8) : Bool :=
  if l.fullLength = r.length then l.equalLoop m r else false

/-! ### Copying

The strings of a caller are given by name, since one of them may be passed in two places. -/

namespace TChunkString

variable {ν : Type} [DecidableEq ν]

/-- One turn of the loop of `Append(chunkList)`, at the place `chunk` of the list of `src`. -/
def appendTurn (dst src : ν) : (ν → TChunkString) × Nat → Runs.Turn Unit ((ν → TChunkString) × Nat)
  | (strings, chunk) =>
    match (strings src)[chunk]? with
    | none => .exit () (strings, chunk)
    | some c =>
      let strings :=
        if 0 < c.length then Function.update strings dst (strings dst ++ [c]) else strings
      .again (strings, chunk + 1)

/-- `dst.Append(src)`, if the loop ends within `fuel` turns. -/
def append (fuel : Nat) (dst src : ν) (strings : ν → TChunkString) : Option (ν → TChunkString) :=
  match Runs.turns (appendTurn dst src) fuel (strings, 0) with
  | .exit _ (strings, _) => some strings
  | _ => none

/-- `dst = src` -/
def assign (fuel : Nat) (dst src : ν) (strings : ν → TChunkString) : Option (ν → TChunkString) :=
  append fuel dst src (Function.update strings dst [])

end TChunkString

end Balancer
