import Balancer.Theory.BlockStream

/-!
# Chunks and chunk lists

`kernel/chunks.h` and `kernel/split.h`. A `TChunk` is a window into a reference-counted buffer; only
the bytes of the window can be observed, so a chunk is the list of these bytes, and a `TChunkList`
(an intrusive list that owns its chunks) is a list of chunks. `MoveTo` and `CopyTo` are `++`.
-/

namespace Balancer

abbrev TChunk := List UInt8
abbrev TChunkList := List TChunk

namespace TChunk

/-- `SubChunk(b, e)`: the bytes from offset `b` up to `e`. -/
def subChunk (c : TChunk) (b e : Nat) : TChunk := (c.take e).drop b

/-- `AddPartTo(b, e, lst)`: nothing is pushed for an empty part. -/
def addPartTo (c : TChunk) (b e : Nat) (lst : TChunkList) : TChunkList :=
  if b < e then lst ++ [c.subChunk b e] else lst

theorem addPartTo_flatten (c : TChunk) (b e : Nat) (lst : TChunkList) :
    (c.addPartTo b e lst).flatten = lst.flatten ++ c.subChunk b e := by
  unfold addPartTo
  split
  · simp
  · next h =>
    have : (c.take e).length ≤ b := by rw [List.length_take]; omega
    simp [subChunk, List.drop_eq_nil_of_le this]

end TChunk

namespace TChunkList

def fullLength (lst : TChunkList) : Nat := (lst.map List.length).sum

theorem fullLength_eq (lst : TChunkList) : lst.fullLength = lst.flatten.length := by
  simp [fullLength, List.length_flatten]

/-- `CopyData(buf, len)`: the bytes written to `buf`. -/
def copyData : TChunkList → Nat → List UInt8
  | [], _ => []
  | c :: lst, len =>
    if len = 0 then [] else c.take len ++ copyData lst (len - (c.take len).length)

theorem copyData_eq (lst : TChunkList) (len : Nat) : lst.copyData len = lst.flatten.take len := by
  induction lst generalizing len with
  | nil => simp [copyData]
  | cons c lst ih =>
    simp only [copyData, List.flatten_cons]
    split
    · next h => simp [h]
    · rw [ih, List.take_append, List.length_take]
      congr 2
      omega

/-- `SplitUnsafe`, with the lists it pushes to as accumulators. When a chunk reaches beyond `len`
its two parts are pushed (the first one also when it is empty) and the rest of `from` is moved to
`after`, which ends the loop. -/
def splitUnsafe : Nat → TChunkList → TChunkList → TChunkList → TChunkList × TChunkList
  | _, [], before, after => (before, after)
  | len, cur :: lst, before, after =>
    if cur.length ≤ len then splitUnsafe (len - cur.length) lst (before ++ [cur]) after
    else (before ++ [cur.subChunk 0 len], after ++ [cur.subChunk len cur.length] ++ lst)

/-- `Split(len, from, before, after)`: the new values of `before` and `after`. Their old values are
swapped out, so the result is the same when one of them is `from`. -/
def split (len : Nat) (lst : TChunkList) : TChunkList × TChunkList := splitUnsafe len lst [] []

/-- `Cut(len, from)`. -/
def cut (len : Nat) (lst : TChunkList) : TChunkList := (split len lst).1

/-! ### Lists that are passed by reference

`Split` gets its lists by reference, and callers pass one list in two places. A call is run on the
values of all lists of its caller, by name. -/

section References
variable {ν : Type} [DecidableEq ν]

/-- `Split(len, from, before, after)`: `SplitUnsafe` pops everything from `from`, and the two local
lists it pushes to are then swapped with `before` and with `after`. -/
def splitRef (len : Nat) (src before after : ν) (lists : ν → TChunkList) : ν → TChunkList :=
  let (tmp1, tmp2) := splitUnsafe len (lists src) [] []
  Function.update (Function.update (Function.update lists src []) before tmp1) after tmp2

end References

theorem splitUnsafe_eq (len : Nat) (lst before after : TChunkList) :
    splitUnsafe len lst before after =
      (before ++ (split len lst).1, after ++ (split len lst).2) := by
  unfold split
  induction lst generalizing len before after with
  | nil => simp [splitUnsafe]
  | cons cur lst ih =>
    simp only [splitUnsafe]
    split
    · rw [ih, ih _ ([] ++ [cur])]
      simp
    · simp

theorem split_nil (len : Nat) : split len [] = ([], []) := rfl

theorem split_cons_le {len : Nat} {cur : TChunk} (h : cur.length ≤ len) (lst : TChunkList) :
    split len (cur :: lst) =
      (cur :: (split (len - cur.length) lst).1, (split (len - cur.length) lst).2) := by
  rw [split, splitUnsafe, if_pos h, splitUnsafe_eq]
  simp

theorem split_cons_gt {len : Nat} {cur : TChunk} (h : len < cur.length) (lst : TChunkList) :
    split len (cur :: lst) = ([cur.take len], cur.drop len :: lst) := by
  rw [split, splitUnsafe, if_neg (by omega)]
  simp [TChunk.subChunk]

/-- `Split` cuts the bytes at `len`. -/
theorem split_flatten (len : Nat) (lst : TChunkList) :
    (split len lst).1.flatten = lst.flatten.take len ∧
      (split len lst).2.flatten = lst.flatten.drop len := by
  induction lst generalizing len with
  | nil => simp [split_nil]
  | cons cur lst ih =>
    by_cases h : cur.length ≤ len
    · rw [split_cons_le h]
      simp only [List.flatten_cons]
      rw [(ih _).1, (ih _).2, List.take_append, List.drop_append, List.take_of_length_le h,
        List.drop_of_length_le h]
      simp
    · have h' : len < cur.length := by omega
      have h0 : len - cur.length = 0 := by omega
      rw [split_cons_gt h']
      constructor
      · simp [List.take_append, h0]
      · simp [List.drop_append, h0]

@[simp] theorem split_fst_flatten (len : Nat) (lst : TChunkList) :
    (split len lst).1.flatten = lst.flatten.take len := (split_flatten len lst).1

@[simp] theorem split_snd_flatten (len : Nat) (lst : TChunkList) :
    (split len lst).2.flatten = lst.flatten.drop len := (split_flatten len lst).2

@[simp] theorem cut_flatten (len : Nat) (lst : TChunkList) :
    (cut len lst).flatten = lst.flatten.take len := split_fst_flatten len lst

theorem split_fst_eq_nil_iff {len : Nat} {lst : TChunkList} :
    (split len lst).1 = [] ↔ lst = [] := by
  cases lst with
  | nil => simp [split_nil]
  | cons cur lst =>
    by_cases h : cur.length ≤ len
    · simp [split_cons_le h]
    · simp [split_cons_gt (Nat.lt_of_not_le h)]

/-- What `Split` leaves behind has only non-empty chunks when the list it cuts has. -/
theorem split_snd_ne_nil {len : Nat} {lst : TChunkList} (h : ∀ c ∈ lst, c ≠ []) :
    ∀ c ∈ (split len lst).2, c ≠ [] := by
  induction lst generalizing len with
  | nil => simp [split_nil]
  | cons cur lst ih =>
    have hlst : ∀ c ∈ lst, c ≠ [] := (List.forall_mem_cons.1 h).2
    by_cases hlen : cur.length ≤ len
    · rw [split_cons_le hlen]
      exact ih hlst
    · have hlen' : len < cur.length := by omega
      rw [split_cons_gt hlen']
      intro c hc
      rcases List.mem_cons.mp hc with rfl | hc
      · exact fun h0 => by
          have := congrArg List.length h0
          simp at this
          omega
      · exact hlst c hc

theorem split_of_le {len : Nat} {lst : TChunkList} (h : lst.flatten.length ≤ len) :
    split len lst = (lst, []) := by
  induction lst generalizing len with
  | nil => rfl
  | cons cur lst ih =>
    rw [List.flatten_cons, List.length_append] at h
    rw [split_cons_le (by omega), ih (by omega)]

theorem cut_of_le {len : Nat} {lst : TChunkList} (h : lst.flatten.length ≤ len) :
    cut len lst = lst := by
  rw [cut, split_of_le h]

/-- When something is left behind all of `len` was handed out. -/
theorem split_fst_length {len : Nat} {lst : TChunkList} (h : (split len lst).2 ≠ []) :
    (split len lst).1.flatten.length = len := by
  induction lst generalizing len with
  | nil => exact absurd rfl h
  | cons cur lst ih =>
    by_cases hlen : cur.length ≤ len
    · rw [split_cons_le hlen] at h ⊢
      have := ih h
      rw [List.flatten_cons, List.length_append, this]
      omega
    · have hlen' : len < cur.length := by omega
      rw [split_cons_gt hlen']
      simp only [List.flatten_cons, List.flatten_nil, List.append_nil, List.length_take]
      omega

/-- The list handed out by `Split` may end with an empty chunk: one is pushed when `len` falls on a
chunk boundary and more chunks follow. -/
example : split 2 [[1, 2], [3]] = ([[1, 2], []], [[3]]) := by decide

end TChunkList

end Balancer
