import Mathlib.Data.Nat.Bitwise

/-!
# The lengths of new chunks

`kernel/alloc.h` and `NewChunk` of `kernel/chunks.h`: memory comes in blocks of a power of two, and
a chunk is as long as its block has room.
-/

namespace Balancer

/-- `FastClp2(t)` for a `size_t`. -/
def fastClp2 (t : Nat) : Nat :=
  1 + [1, 2, 4, 8, 16, 32].foldl (fun prev n => prev ||| prev >>> n) (t - 1)

namespace TChunkData

def sizeOfPtr : Nat := 8
def sizeOfSizeT : Nat := 8

/-- A table of virtual functions and a reference counter. -/
def sizeOf : Nat := 16

/-- `TAllocator::Alloc(len)`: the length of the range. -/
def alloc (len : Nat) : Nat := fastClp2 (len + sizeOfPtr) - sizeOfPtr

/-- `AdditionalLength()` of a `TChunkData` that is created with `new (add)`. -/
def additionalLength (add : Nat) : Nat :=
  let overHead := sizeOf + sizeOfSizeT
  alloc (add + overHead) - overHead

end TChunkData

/-- `NewChunk(len)->Length()` -/
def newChunkLength (len : Nat) : Nat := TChunkData.additionalLength len

theorem le_foldl_or (ns : List Nat) (p : Nat) :
    p ≤ ns.foldl (fun prev n => prev ||| prev >>> n) p := by
  induction ns generalizing p with
  | nil => exact Nat.le_refl p
  | cons n ns ih => exact Nat.left_le_or.trans (ih _)

theorem foldl_or_lt {p w : Nat} (ns : List Nat) (hp : p < 2 ^ w) :
    ns.foldl (fun prev n => prev ||| prev >>> n) p < 2 ^ w := by
  induction ns generalizing p with
  | nil => exact hp
  | cons n ns ih =>
    refine ih (Nat.or_lt_two_pow hp ?_)
    exact (Nat.shiftRight_le p n).trans_lt hp

theorem newChunkLength_eq (len : Nat) : newChunkLength len = fastClp2 (len + 32) - 32 := by
  rw [newChunkLength, TChunkData.additionalLength, TChunkData.alloc, Nat.sub_sub]
  rfl

/-- A new chunk is at least as long as it was asked for. -/
theorem le_newChunkLength (len : Nat) : len ≤ newChunkLength len := by
  have := le_foldl_or [1, 2, 4, 8, 16, 32] (len + 32 - 1)
  rw [newChunkLength_eq, fastClp2]
  omega

theorem newChunkLength_lt {len w : Nat} (h : len + 32 ≤ 2 ^ w) : newChunkLength len < 2 ^ w := by
  have := foldl_or_lt [1, 2, 4, 8, 16, 32] (show len + 32 - 1 < 2 ^ w by omega)
  rw [newChunkLength_eq, fastClp2]
  omega

example : newChunkLength 7000 = 8160 := by decide

end Balancer
