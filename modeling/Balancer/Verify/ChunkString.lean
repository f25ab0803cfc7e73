import Balancer.Kernel.ChunkString

/-!
# Strings of chunks and flat strings

Where a string is cut into chunks makes no difference: an iterator is a position in the bytes, and
comparisons are those of the bytes. Only a string that is appended or assigned to itself is an
exception.
-/

namespace Balancer

open Function (update update_of_ne update_self)

namespace TChunkString

/-! ### Positions -/

/-- The position of an iterator in the bytes. -/
inductive Denotes (lst : TChunkString) : TIterator → ℕ → Prop where
  | inside {pre post : TChunkList} {c : TChunk} {k : ℕ} : lst = pre ++ c :: post → k < c.length →
      Denotes lst ⟨pre.length, k⟩ (pre.flatten.length + k)
  | last : Denotes lst ⟨lst.length, 0⟩ lst.flatten.length

section Positions

variable {lst pre post : TChunkString} (junk : TChunk) {c : TChunk} {it it' : TIterator}
  {i j n fuel : ℕ}

@[simp] theorem chunkAt_append (pre post : TChunkList) (c : TChunk) :
    chunkAt (pre ++ c :: post) junk pre.length = c := by
  simp [chunkAt]

@[simp] theorem nextChunk_append (pre post : TChunkList) (c : TChunk) :
    nextChunk (pre ++ c :: post) pre.length = pre.length + 1 := by
  rw [nextChunk, if_neg (by simp)]

theorem Denotes.le (h : Denotes lst it i) : i ≤ lst.flatten.length := by
  cases h with
  | inside hlst hk =>
    rw [hlst]
    simp
    omega
  | last => exact Nat.le_refl _

/-- The place in front of the chunks `post`. -/
theorem denotes_front (pre : TChunkList) (hne : ∀ c ∈ post, c ≠ []) :
    Denotes (pre ++ post) ⟨pre.length, 0⟩ pre.flatten.length := by
  cases post with
  | nil =>
    rw [List.append_nil]
    exact .last
  | cons c post => exact .inside rfl (List.length_pos_iff.2 (hne c List.mem_cons_self))

/-- The place before the one in front of the chunks `post`. -/
theorem denotes_back (pre post : TChunkList) (hc : c ≠ []) :
    Denotes (pre ++ c :: post) ⟨pre.length, c.length - 1⟩ ((pre ++ [c]).flatten.length - 1) := by
  have hpos : 0 < c.length := List.length_pos_iff.2 hc
  have hpos' : (pre ++ [c]).flatten.length - 1 = pre.flatten.length + (c.length - 1) := by
    simp
    omega
  rw [hpos']
  exact .inside rfl (by omega)

/-- The chunks in front of a place that is not the first one. -/
theorem exists_concat (hpos : 0 < pre.flatten.length) : ∃ pre' c, pre = pre' ++ [c] := by
  rcases List.eq_nil_or_concat pre with rfl | ⟨pre', c, rfl⟩
  · cases hpos
  · exact ⟨pre', c, List.concat_eq_append⟩

theorem prevChunk_concat (pre post : TChunkList) (c : TChunk) :
    prevChunk (pre ++ [c] ++ post) (pre ++ [c]).length = pre.length := by
  rw [prevChunk, if_neg (by simp), List.length_append]
  rfl

theorem chunkAt_concat (pre post : TChunkList) (c : TChunk) :
    chunkAt (pre ++ [c] ++ post) junk pre.length = c := by
  simp [chunkAt]

/-- `--Chunk_` from the place in front of the chunks `post`, with the last byte of the chunk
there. -/
theorem denotes_prevChunk (pre post : TChunkList) (hne : ∀ c ∈ pre ++ post, c ≠ [])
    (hpos : 0 < pre.flatten.length) :
    let chunk := prevChunk (pre ++ post) pre.length
    0 < (chunkAt (pre ++ post) junk chunk).length ∧
      Denotes (pre ++ post) ⟨chunk,
        (chunkAt (pre ++ post) junk chunk).length - 1⟩ (pre.flatten.length - 1) := by
  obtain ⟨pre', c, rfl⟩ := exists_concat hpos
  have hc : c ≠ [] := hne c (by simp)
  simp only [prevChunk_concat, chunkAt_concat]
  refine ⟨List.length_pos_iff.2 hc, ?_⟩
  rw [List.append_assoc, List.singleton_append]
  exact denotes_back pre' post hc

/-- A position inside of a chunk is before everything behind the chunk. -/
theorem inside_unique {pre pre' post post' : TChunkList} {c c' : TChunk} {k k' : ℕ}
    (hlst : pre ++ c :: post = pre' ++ c' :: post') (hk : k < c.length) (hk' : k' < c'.length)
    (hpos : pre.flatten.length + k = pre'.flatten.length + k') :
    pre.length = pre'.length ∧ k = k' := by
  rcases List.append_eq_append_iff.1 hlst with ⟨a, rfl, ha⟩ | ⟨a, rfl, ha⟩
  · cases a with
    | nil => simpa using hpos
    | cons d a =>
      cases ha
      simp only [List.flatten_append, List.flatten_cons, List.length_append] at hpos
      omega
  · cases a with
    | nil => simpa using hpos
    | cons d a =>
      cases ha
      simp only [List.flatten_append, List.flatten_cons, List.length_append] at hpos
      omega

theorem inside_lt {k : ℕ} (hlst : lst = pre ++ c :: post) (hk : k < c.length) :
    pre.flatten.length + k < lst.flatten.length := by
  rw [hlst]
  simp
  omega

/-- Iterators with the same position are equal. -/
theorem Denotes.eq (h : Denotes lst it i) (h' : Denotes lst it' i) : it = it' := by
  cases h with
  | @inside pre post c k hlst hk =>
    generalize hj : pre.flatten.length + k = j at h'
    cases h' with
    | @inside pre' post' c' k' hlst' hk' =>
      obtain ⟨hchunk, hindex⟩ := inside_unique (hlst.symm.trans hlst') hk hk' hj
      rw [hchunk, hindex]
    | last => exact absurd hj (Nat.ne_of_lt (inside_lt hlst hk))
  | last =>
    generalize hj : lst.flatten.length = j at h'
    cases h' with
    | inside hlst' hk' => exact absurd hj.symm (Nat.ne_of_lt (inside_lt hlst' hk'))
    | last => rfl

theorem Denotes.deref (h : Denotes lst it i) (hi : i < lst.flatten.length) :
    it.deref lst junk = lst.flatten[i]? := by
  cases h with
  | @inside pre post c k hlst hk =>
    subst hlst
    rw [TIterator.deref, chunkAt_append, List.flatten_append, List.flatten_cons,
      List.getElem?_append_right (by omega), Nat.add_sub_cancel_left, List.getElem?_append_left hk]
  | last => exact absurd hi (Nat.lt_irrefl _)

theorem Denotes.next (hne : ∀ c ∈ lst, c ≠ []) (h : Denotes lst it i)
    (hi : i < lst.flatten.length) : Denotes lst (it.next lst junk) (i + 1) := by
  cases h with
  | @inside pre post c k hlst hk =>
    subst hlst
    simp only [TIterator.next, chunkAt_append, nextChunk_append]
    split
    · next hlast =>
      have hfront : Denotes ((pre ++ [c]) ++ post) ⟨(pre ++ [c]).length, 0⟩
          (pre ++ [c]).flatten.length :=
        denotes_front _ fun d hd => hne d (by simp [hd])
      have hpos : pre.flatten.length + k + 1 = (pre ++ [c]).flatten.length := by
        simp
        omega
      rw [hpos]
      simpa using hfront
    · exact .inside rfl (by omega)
  | last => exact absurd hi (Nat.lt_irrefl _)

theorem Denotes.prev (hne : ∀ c ∈ lst, c ≠ []) (h : Denotes lst it (i + 1)) :
    Denotes lst (it.prev lst junk) i := by
  generalize hj : i + 1 = j at h
  cases h with
  | @inside pre post c k hlst hk =>
    subst hlst
    simp only [TIterator.prev]
    split
    · next h0 =>
      subst h0
      obtain ⟨-, hback⟩ := denotes_prevChunk junk _ _ hne (show 0 < pre.flatten.length by omega)
      rwa [show pre.flatten.length - 1 = i by omega] at hback
    · rw [show i = pre.flatten.length + (k - 1) by omega]
      exact .inside rfl (by omega)
  | last =>
    rw [TIterator.prev, if_pos rfl]
    obtain ⟨-, hback⟩ := denotes_prevChunk junk lst [] (by simpa using hne) (by omega)
    rw [List.append_nil] at hback
    rwa [show lst.flatten.length - 1 = i by omega] at hback

theorem iterate_next (hne : ∀ c ∈ lst, c ≠ []) (h : Denotes lst it i)
    (hi : i + n ≤ lst.flatten.length) : Denotes lst ((TIterator.next lst junk)^[n] it) (i + n) := by
  induction n with
  | zero => exact h
  | succ n ih =>
    rw [Function.iterate_succ_apply', ← Nat.add_assoc]
    exact (ih (by omega)).next junk hne (by omega)

theorem iterate_prev (hne : ∀ c ∈ lst, c ≠ []) (h : Denotes lst it (i + n)) :
    Denotes lst ((TIterator.prev lst junk)^[n] it) i := by
  induction n generalizing it with
  | zero => exact h
  | succ n ih =>
    rw [Function.iterate_succ_apply]
    exact ih (h.prev junk hne)

/-- `Next(n)`. A turn of the loop takes at least one byte, since no chunk is empty. -/
theorem Denotes.nextBy (hne : ∀ c ∈ lst, c ≠ []) (h : Denotes lst it i)
    (hi : i + n ≤ lst.flatten.length) (hfuel : n < fuel) :
    ∃ it', it.nextBy lst junk fuel n = some it' ∧ Denotes lst it' (i + n) := by
  induction fuel generalizing it i n with
  | zero => cases hfuel
  | succ fuel ih =>
    rw [TIterator.nextBy]
    split
    · next hn =>
      cases h with
      | last => omega
      | @inside pre post c k hlst hk =>
        have hchunk : chunkAt lst junk pre.length = c := hlst ▸ chunkAt_append ..
        have hnext : nextChunk lst pre.length = pre.length + 1 := hlst ▸ nextChunk_append ..
        simp only [hchunk, hnext]
        split
        · next hleft =>
          have hfront : Denotes ((pre ++ [c]) ++ post) ⟨(pre ++ [c]).length, 0⟩
              (pre ++ [c]).flatten.length :=
            denotes_front _ fun d hd => hne d (by simp [hlst, hd])
          have hlst' : (pre ++ [c]) ++ post = lst := by simp [hlst]
          have hpos : (pre ++ [c]).flatten.length = pre.flatten.length + c.length := by simp
          rw [hlst', hpos, List.length_append] at hfront
          obtain ⟨it', hit', hden⟩ := ih hfront (n := n - (c.length - k)) (by omega) (by omega)
          refine ⟨it', hit', ?_⟩
          rwa [show pre.flatten.length + c.length + (n - (c.length - k)) =
            pre.flatten.length + k + n by omega] at hden
        · next hleft =>
          have hin : Denotes lst ⟨pre.length, k + n⟩ (pre.flatten.length + (k + n)) :=
            .inside hlst (by omega)
          obtain ⟨it', hit', hden⟩ := ih hin (n := 0) (by omega) (by omega)
          exact ⟨it', hit', by rwa [Nat.add_zero, ← Nat.add_assoc] at hden⟩
    · next hn =>
      obtain rfl : n = 0 := by omega
      exact ⟨it, rfl, h⟩

/-- The chunks in front of an iterator and the others. -/
theorem Denotes.split (h : Denotes lst it i) : ∃ pre post : TChunkList,
    lst = pre ++ post ∧ it.chunk = pre.length ∧
    i = pre.flatten.length + it.indexWithinChunk := by
  cases h with
  | inside hlst => exact ⟨_, _, hlst, rfl, rfl⟩
  | last => exact ⟨lst, [], (List.append_nil _).symm, rfl, rfl⟩

theorem Denotes.back (h : Denotes lst it i) (hn : n ≤ it.indexWithinChunk) :
    Denotes lst ⟨it.chunk, it.indexWithinChunk - n⟩ (i - n) := by
  cases h with
  | @inside pre post c k hlst hk =>
    have hn : n ≤ k := hn
    rw [Nat.add_sub_assoc hn]
    exact .inside hlst ((Nat.sub_le k n).trans_lt hk)
  | last =>
    obtain rfl := Nat.le_zero.1 hn
    exact .last

/-- The loop of `Prev(n)` stands on the last of `chunkLeft` bytes of a chunk, or on `End_`. -/
theorem prevLoop_spec (hne : ∀ c ∈ lst, c ≠ []) {chunk chunkLeft : ℕ} (hleft : 0 < chunkLeft)
    (h : Denotes lst ⟨chunk, chunkLeft - 1⟩ i) (hi : n ≤ i) (hfuel : n < fuel) :
    ∃ it', TIterator.prevLoop lst junk fuel chunk chunkLeft n = some it' ∧
      Denotes lst it' (i - n) := by
  induction fuel generalizing chunk chunkLeft i n with
  | zero => cases hfuel
  | succ fuel ih =>
    rw [TIterator.prevLoop]
    split
    · next hle =>
      obtain ⟨pre, post, hlst, hchunk, hpos⟩ := h.split
      subst hlst
      simp only at hchunk hpos
      subst hchunk
      obtain ⟨hlen, hback⟩ := denotes_prevChunk junk _ _ hne (show 0 < pre.flatten.length by omega)
      obtain ⟨it', hit', hden⟩ := ih (n := n - chunkLeft) hlen hback (by omega) (by omega)
      refine ⟨it', hit', ?_⟩
      rwa [show pre.flatten.length - 1 - (n - chunkLeft) = i - n by omega] at hden
    · next hlt =>
      rw [if_neg (by omega)]
      exact ⟨_, rfl, h.back (by simp only; omega)⟩

/-- `Prev(n)` -/
theorem Denotes.prevBy (hne : ∀ c ∈ lst, c ≠ []) (h : Denotes lst it i) (hi : n ≤ i)
    (hfuel : n < fuel) : ∃ it', it.prevBy lst junk fuel n = some it' ∧ Denotes lst it' (i - n) :=
  prevLoop_spec junk hne (Nat.succ_pos _) h hi hfuel

theorem toSize_ofNat (h : n < 2 ^ 31) : TIterator.toSize (Int32.ofNat n) = n := by
  have hint : (Int32.ofNat n).toInt64.toInt = n := by
    rw [Int32.toInt_toInt64, Int32.toInt_ofNat_of_lt h]
  have hpos : (0 : Int64) ≤ (Int32.ofNat n).toInt64 := by
    rw [Int64.le_iff_toInt_le, hint]
    exact Int.natCast_nonneg n
  rw [TIterator.toSize, Int64.toNat_toUInt64_of_le hpos, ← Int64.toNat_toInt, hint]
  rfl

theorem ofNat_pos_iff (h : n < 2 ^ 31) : 0 < Int32.ofNat n ↔ 0 < n := by
  rw [Int32.lt_iff_toInt_lt, Int32.toInt_ofNat_of_lt h]
  exact Int.natCast_pos

theorem not_neg_pos (h : n < 2 ^ 31) : ¬0 < -Int32.ofNat n := by
  rw [Int32.lt_iff_toInt_lt, Int32.toInt_neg, Int32.toInt_ofNat_of_lt h,
    Int.bmod_eq_of_le (by omega) (by omega)]
  exact Int.not_lt.2 (neg_nonpos.2 (Int.natCast_nonneg n))

/-! ### Cutting -/

theorem Denotes.cutFront (h : Denotes lst it i) :
    (cutFront lst junk it).flatten = lst.flatten.drop i := by
  cases h with
  | @inside pre post c k hlst hk =>
    subst hlst
    have hlist : (pre ++ c :: post).flatten.drop (pre.flatten.length + k) =
        c.drop k ++ post.flatten := by
      rw [List.flatten_append, List.flatten_cons, List.drop_length_add_append,
        List.drop_append_of_le_length hk.le]
    rw [hlist]
    unfold TChunkString.cutFront
    split
    · next h0 =>
      simp only at h0
      simp [h0]
    · simp only [chunkAt_append, nextChunk_append, TChunk.subChunk, List.take_length]
      rw [if_pos (by simp; omega)]
      simp
  | last => simp [TChunkString.cutFront]

theorem Denotes.cutBack (h : Denotes lst it i) :
    (cutBack lst junk it).flatten = lst.flatten.take i := by
  cases h with
  | @inside pre post c k hlst hk =>
    subst hlst
    have hlist : (pre ++ c :: post).flatten.take (pre.flatten.length + k) =
        pre.flatten ++ c.take k := by
      rw [List.flatten_append, List.flatten_cons, List.take_length_add_append,
        List.take_append_of_le_length hk.le]
    rw [hlist]
    unfold TChunkString.cutBack
    split
    · next h0 =>
      simp only at h0
      simp [h0]
    · next h0 =>
      have h0 : k ≠ 0 := h0
      simp only [chunkAt_append, TChunk.subChunk, List.drop_zero]
      rw [if_pos (by simp; omega)]
      simp
  | last => simp [TChunkString.cutBack]

/-! ### Searching -/

theorem idxOf?_append {l l' : List UInt8} {a : UInt8} :
    (l ++ l').idxOf? a = (l.idxOf? a).or ((l'.idxOf? a).map (l.length + ·)) := by
  simp only [List.idxOf?, List.findIdx?_append, Nat.add_comm]

theorem memchr_zero (data : List UInt8) (a : UInt8) (n : ℕ) :
    memchr data a 0 n = (data.take n).idxOf? a := by
  simp [memchr]

/-- The loop of `FindImpl` goes through the chunks `mid`. -/
theorem findLoop_spec (pre post : TChunkList) (c : TChunk) (a : UInt8) (mid : TChunkList)
    (hfuel : mid.length < fuel) :
    match mid.flatten.idxOf? a with
    | some x => ∃ m d m' y, mid = m ++ d :: m' ∧ y < d.length ∧ x = m.flatten.length + y ∧
        findLoop (pre ++ c :: (mid ++ post)) junk a (pre.length + 1 + mid.length) fuel pre.length =
          some (pre.length + 1 + m.length, some y)
    | none =>
      findLoop (pre ++ c :: (mid ++ post)) junk a (pre.length + 1 + mid.length) fuel pre.length =
        some (pre.length + 1 + mid.length, none) := by
  induction mid generalizing pre c fuel with
  | nil =>
    obtain ⟨fuel, rfl⟩ := Nat.exists_eq_add_one.2 hfuel.pos
    simp [findLoop]
  | cons d mid ih =>
    obtain ⟨fuel, rfl⟩ := Nat.exists_eq_add_one.2 hfuel.pos
    have hd : chunkAt (pre ++ c :: (d :: mid ++ post)) junk (pre.length + 1) = d := by
      have := chunkAt_append junk (pre ++ [c]) (mid ++ post) d
      simpa using this
    have hloop : findLoop (pre ++ c :: (d :: mid ++ post)) junk a
        (pre.length + 1 + (d :: mid).length) (fuel + 1)
        pre.length = match d.idxOf? a with
          | some i => some (pre.length + 1, some i)
          | none =>
            findLoop ((pre ++ [c]) ++ d :: (mid ++ post)) junk a
              ((pre ++ [c]).length + 1 + mid.length) fuel (pre ++ [c]).length := by
      rw [findLoop]
      simp only [nextChunk_append, hd, memchr_zero, List.take_length]
      rw [if_neg (by simp)]
      cases d.idxOf? a <;> simp [Nat.add_comm, Nat.add_left_comm]
    rw [hloop, List.flatten_cons, idxOf?_append]
    cases hy : d.idxOf? a with
    | some y =>
      obtain ⟨hlt, -⟩ := List.idxOf?_eq_some_iff.1 hy
      exact ⟨[], d, mid, y, rfl, hlt, by simp, rfl⟩
    | none =>
      have ih := ih (pre ++ [c]) d (by simpa using hfuel)
      cases hx : mid.flatten.idxOf? a with
      | none =>
        rw [hx] at ih
        simp only [Option.map_none, Option.or_none]
        rw [ih]
        simp [Nat.add_comm, Nat.add_left_comm]
      | some x =>
        rw [hx] at ih
        obtain ⟨m, e, m', y, rfl, hlt, rfl, hfind⟩ := ih
        refine ⟨d :: m, e, m', y, rfl, hlt, by simp [Nat.add_assoc], ?_⟩
        simp only
        rw [hfind]
        simp [Nat.add_comm, Nat.add_left_comm]

/-- What `Find(a, first, last)` gives, for the bytes between the two. -/
def Finds (lst : TChunkString) (junk : TChunk) (fuel : ℕ) (a : UInt8) (first last : TIterator)
    (i : ℕ) (between : List UInt8) : Prop :=
  match between.idxOf? a with
  | some x => ∃ it, findImpl lst junk fuel a first last = some it ∧ Denotes lst it (i + x)
  | none => findImpl lst junk fuel a first last = some last

theorem finds_same {k k' : ℕ} (a : UInt8) (hk' : k' ≤ c.length) :
    Finds (pre ++ c :: post) junk fuel a ⟨pre.length, k⟩ ⟨pre.length, k'⟩ (pre.flatten.length + k)
      ((c.drop k).take (k' - k)) := by
  unfold Finds
  have hfind : findImpl (pre ++ c :: post) junk fuel a ⟨pre.length, k⟩ ⟨pre.length, k'⟩ =
      match ((c.drop k).take (k' - k)).idxOf? a with
      | some x => some ⟨pre.length, k + x⟩
      | none => some ⟨pre.length, k'⟩ := by
    rw [findImpl, if_pos rfl]
    simp only [chunkAt_append, memchr]
    cases ((c.drop k).take (k' - k)).idxOf? a <;> rfl
  rw [hfind]
  cases hx : ((c.drop k).take (k' - k)).idxOf? a with
  | none => rfl
  | some x =>
    obtain ⟨hlt, -⟩ := List.idxOf?_eq_some_iff.1 hx
    rw [List.length_take, List.length_drop] at hlt
    refine ⟨_, rfl, ?_⟩
    rw [Nat.add_assoc]
    exact .inside rfl (by omega)

/-- `last` is in the chunk behind the chunks `mid`, or there is no such chunk. -/
theorem finds_across {mid : TChunkList} {k k' : ℕ} (a : UInt8)
    (hlst : lst = pre ++ c :: (mid ++ post)) (hk : k < c.length) (hfuel : mid.length < fuel)
    (hlast : ∀ y < k', Denotes lst ⟨pre.length + 1 + mid.length, y⟩
      (pre.flatten.length + c.length + mid.flatten.length + y)) :
    Finds lst junk fuel a ⟨pre.length, k⟩ ⟨pre.length + 1 + mid.length, k'⟩ (pre.flatten.length + k)
      (c.drop k ++ (mid.flatten ++ (chunkAt lst junk (pre.length + 1 + mid.length)).take k')) := by
  unfold Finds
  have hloop := findLoop_spec junk pre post c a mid hfuel
  rw [← hlst] at hloop
  have hc : chunkAt lst junk pre.length = c := hlst ▸ chunkAt_append ..
  have htake : (c.drop k).take (c.length - k) = c.drop k := List.take_of_length_le (by simp)
  have hchunk : pre.length ≠ pre.length + 1 + mid.length := by omega
  rw [findImpl, if_neg hchunk, idxOf?_append]
  simp only [hc, memchr, htake, List.drop_zero, Nat.zero_add, Option.map_id_fun']
  cases hx : (c.drop k).idxOf? a with
  | some x =>
    obtain ⟨hlt, -⟩ := List.idxOf?_eq_some_iff.1 hx
    rw [List.length_drop] at hlt
    refine ⟨_, rfl, ?_⟩
    rw [Nat.add_assoc]
    exact .inside hlst (show k + x < c.length by omega)
  | none =>
    rw [Option.none_or, idxOf?_append]
    simp only [Option.map_none]
    cases hm : mid.flatten.idxOf? a with
    | some x =>
      rw [hm] at hloop
      obtain ⟨m, d, m', y, rfl, hlt, rfl, hloop⟩ := hloop
      simp only [hloop, Option.some_or, Option.map_some]
      refine ⟨_, rfl, ?_⟩
      have hsplit : lst = (pre ++ c :: m) ++ d :: (m' ++ post) := by simp [hlst]
      have hin : Denotes lst ⟨(pre ++ c :: m).length, y⟩ ((pre ++ c :: m).flatten.length + y) :=
        .inside hsplit hlt
      have hpos : pre.flatten.length + k + ((c.drop k).length + (m.flatten.length + y)) =
          (pre ++ c :: m).flatten.length + y := by
        simp
        omega
      rw [hpos]
      simpa [Nat.add_comm, Nat.add_left_comm] using hin
    | none =>
      rw [hm] at hloop
      simp only [hloop, Option.none_or]
      cases hd : ((chunkAt lst junk (pre.length + 1 + mid.length)).take k').idxOf? a with
      | none => rfl
      | some y =>
        obtain ⟨hlt, -⟩ := List.idxOf?_eq_some_iff.1 hd
        rw [List.length_take] at hlt
        refine ⟨_, rfl, ?_⟩
        have hpos : pre.flatten.length + k + ((c.drop k).length + (mid.flatten.length + y)) =
            pre.flatten.length + c.length + mid.flatten.length + y := by
          simp
          omega
        rw [hpos]
        exact hlast y (by omega)

/-- An iterator that is not in front of the chunk `c` is in that chunk, or behind some chunks
`mid`. -/
theorem Denotes.behind (h : Denotes lst it j) (hlst : lst = pre ++ c :: post)
    (hj : pre.flatten.length ≤ j) :
    (∃ k', it = ⟨pre.length, k'⟩ ∧ k' < c.length ∧ j = pre.flatten.length + k') ∨
    ∃ mid post' k', post = mid ++ post' ∧ it = ⟨pre.length + 1 + mid.length, k'⟩ ∧
      j = pre.flatten.length + c.length + mid.flatten.length + k' ∧
      (chunkAt lst junk (pre.length + 1 + mid.length)).take k' = post'.flatten.take k' ∧
      ∀ y < k', Denotes lst ⟨pre.length + 1 + mid.length, y⟩
        (pre.flatten.length + c.length + mid.flatten.length + y) := by
  subst hlst
  cases h with
  | last =>
    have hlen : (pre ++ c :: post).length = pre.length + 1 + post.length := by simp; omega
    refine .inr ⟨post, [], 0, (List.append_nil _).symm, by rw [hlen], by simp; omega, rfl, ?_⟩
    exact fun y hy => absurd hy (Nat.not_lt_zero y)
  | @inside pre' post' d k' hlst' hk' =>
    rcases List.append_eq_append_iff.1 hlst' with ⟨mid, rfl, hmid⟩ | ⟨mid, rfl, hmid⟩
    · cases mid with
      | nil =>
        cases hmid
        exact .inl ⟨k', by simp, hk', by simp⟩
      | cons e mid =>
        obtain ⟨rfl, rfl⟩ : c = e ∧ post = mid ++ d :: post' := List.cons.inj hmid
        have hlen : (pre ++ c :: mid).length = pre.length + 1 + mid.length := by simp; omega
        have hd : chunkAt (pre ++ c :: (mid ++ d :: post')) junk (pre.length + 1 + mid.length) =
            d := by
          rw [← hlen, hlst']
          exact chunkAt_append ..
        refine .inr ⟨mid, d :: post', k', rfl, by rw [hlen], by simp; omega, ?_, fun y hy => ?_⟩
        · rw [hd, List.flatten_cons, List.take_append_of_le_length hk'.le]
        · have hin : Denotes (pre ++ c :: (mid ++ d :: post')) ⟨(pre ++ c :: mid).length, y⟩
              ((pre ++ c :: mid).flatten.length + y) := .inside hlst' (hy.trans hk')
          rw [hlen] at hin
          simpa [Nat.add_assoc] using hin
    · -- in front of the chunk `c` there is no such place
      cases mid with
      | nil =>
        cases hmid
        exact .inl ⟨k', by simp, hk', by simp⟩
      | cons e mid =>
        obtain ⟨rfl, -⟩ : d = e ∧ post' = mid ++ c :: post := List.cons.inj hmid
        simp only [List.flatten_append, List.flatten_cons, List.length_append] at hj
        omega

/-- The bytes from inside of a chunk on to those behind the chunks `mid`. -/
theorem between_across {mid post : TChunkList} {c : TChunk} {k k' : ℕ} (pre : TChunkList)
    (hk : k < c.length) : ((pre ++ c :: (mid ++ post)).flatten.drop (pre.flatten.length + k)).take
      (pre.flatten.length + c.length + mid.flatten.length + k' - (pre.flatten.length + k)) =
      c.drop k ++ (mid.flatten ++ post.flatten.take k') := by
  have hlen : pre.flatten.length + c.length + mid.flatten.length + k' - (pre.flatten.length + k) =
      (c.drop k).length + (mid.flatten.length + k') := by
    simp
    omega
  rw [hlen, List.flatten_append, List.drop_length_add_append, List.flatten_cons,
    List.drop_append_of_le_length hk.le, List.take_length_add_append, List.flatten_append,
    List.take_length_add_append]

theorem Denotes.finds {first last : TIterator} (a : UInt8) (hfirst : Denotes lst first i)
    (hlast : Denotes lst last j) (hij : i ≤ j) (hfuel : lst.length < fuel) :
    Finds lst junk fuel a first last i ((lst.flatten.drop i).take (j - i)) := by
  cases hfirst with
  | last =>
    obtain rfl := Nat.le_antisymm hlast.le hij
    obtain rfl := hlast.eq .last
    simp [Finds, findImpl, memchr]
  | @inside pre post c k hlst hk =>
    rcases hlast.behind junk hlst (by omega) with ⟨k', rfl, hk', rfl⟩ | ⟨mid, post', k', rfl, rfl,
      rfl, htail, hden⟩
    · have hbytes : (lst.flatten.drop (pre.flatten.length + k)).take
          (pre.flatten.length + k' - (pre.flatten.length + k)) = (c.drop k).take (k' - k) := by
        rw [hlst, List.flatten_append, List.drop_length_add_append, List.flatten_cons,
          List.drop_append_of_le_length hk.le, Nat.add_sub_add_left,
          List.take_append_of_le_length (by rw [List.length_drop]; omega)]
      rw [hbytes, hlst]
      exact finds_same junk a hk'.le
    · have hmid : mid.length < fuel := by
        simp [hlst] at hfuel
        omega
      have hfinds := finds_across junk a hlst hk hmid hden
      rwa [htail, ← between_across pre hk, ← hlst] at hfinds

end Positions

/-- Iterators are indices of the bytes: where they lead, what they are moved to, what is cut off and
found at them. -/
structure IndexArithmetic (lst : TChunkString) (junk : TChunk) : Prop where
  unique : ∀ it it' i, Denotes lst it i → Denotes lst it' i → it = it'
  begin_add : ∀ i fuel, i ≤ lst.flatten.length → i < fuel →
    ∃ it, begin.nextBy lst junk fuel i = some it ∧
    Denotes lst it i ∧ (i < lst.flatten.length → it.deref lst junk = lst.flatten[i]?)
  end_sub : ∀ k fuel, k ≤ lst.flatten.length → k < fuel →
    ∃ it, (endIterator lst).prevBy lst junk fuel k = some it ∧
    Denotes lst it (lst.flatten.length - k)
  prev_next : ∀ it i, Denotes lst it i → i < lst.flatten.length →
    Denotes lst (it.next lst junk) (i + 1) ∧ (it.next lst junk).prev lst junk = it
  next_prev : ∀ it i, Denotes lst it (i + 1) →
    Denotes lst (it.prev lst junk) i ∧ (it.prev lst junk).next lst junk = it
  add : ∀ it i n fuel, Denotes lst it i → i + n ≤ lst.flatten.length → n < fuel →
    it.nextBy lst junk fuel n = some ((TIterator.next lst junk)^[n] it)
  sub : ∀ it i n fuel, Denotes lst it i → n ≤ i → n < fuel →
    it.prevBy lst junk fuel n = some ((TIterator.prev lst junk)^[n] it)
  addInt : ∀ it i n fuel, Denotes lst it i → i + n ≤ lst.flatten.length → n < fuel → n < 2 ^ 31 →
    it.addInt lst junk fuel (Int32.ofNat n) = some ((TIterator.next lst junk)^[n] it) ∧
      it.subInt lst junk fuel (-Int32.ofNat n) = some ((TIterator.next lst junk)^[n] it)
  subInt : ∀ it i n fuel, Denotes lst it i → n ≤ i → n < fuel → n < 2 ^ 31 →
    it.subInt lst junk fuel (Int32.ofNat n) = some ((TIterator.prev lst junk)^[n] it) ∧
      it.addInt lst junk fuel (-Int32.ofNat n) = some ((TIterator.prev lst junk)^[n] it)
  cutFront : ∀ it i, Denotes lst it i → (cutFront lst junk it).flatten = lst.flatten.drop i
  cutBack : ∀ it i, Denotes lst it i → (cutBack lst junk it).flatten = lst.flatten.take i
  find : ∀ a first last i j fuel, Denotes lst first i → Denotes lst last j → i ≤ j →
    lst.length < fuel →
    Finds lst junk fuel a first last i ((lst.flatten.drop i).take (j - i))

section

variable {lst : TChunkString} (junk : TChunk) {it : TIterator} {i n fuel : ℕ}

theorem nextBy_eq_iterate (hne : ∀ c ∈ lst, c ≠ []) (h : Denotes lst it i)
    (hi : i + n ≤ lst.flatten.length) (hfuel : n < fuel) :
    it.nextBy lst junk fuel n = some ((TIterator.next lst junk)^[n] it) := by
  obtain ⟨it', hit', hden⟩ := h.nextBy junk hne hi hfuel
  rw [hit', hden.eq (iterate_next junk hne h hi)]

theorem prevBy_eq_iterate (hne : ∀ c ∈ lst, c ≠ []) (h : Denotes lst it i) (hi : n ≤ i)
    (hfuel : n < fuel) : it.prevBy lst junk fuel n = some ((TIterator.prev lst junk)^[n] it) := by
  obtain ⟨it', hit', hden⟩ := h.prevBy junk hne hi hfuel
  rw [← Nat.sub_add_cancel hi] at h
  rw [hit', hden.eq (iterate_prev junk hne h)]

/-- `Next(0)` and `Prev(0)` stay. -/
theorem prevBy_zero (hfuel : 0 < fuel) : it.prevBy lst junk fuel 0 = it.nextBy lst junk fuel 0 := by
  obtain ⟨fuel, rfl⟩ := Nat.exists_eq_add_one.2 hfuel.pos
  simp [TIterator.prevBy, TIterator.prevLoop, TIterator.nextBy]

/-- The overloads for `int` choose between the two moves by the sign. -/
theorem addInt_ofNat (hfuel : 0 < fuel) (hn : n < 2 ^ 31) :
    it.addInt lst junk fuel (Int32.ofNat n) = it.nextBy lst junk fuel n := by
  rcases Nat.eq_zero_or_pos n with rfl | hpos
  · exact prevBy_zero junk hfuel
  · rw [TIterator.addInt, if_pos ((ofNat_pos_iff hn).2 hpos), toSize_ofNat hn]

theorem addInt_neg (hn : n < 2 ^ 31) :
    it.addInt lst junk fuel (-Int32.ofNat n) = it.prevBy lst junk fuel n := by
  rw [TIterator.addInt, if_neg (not_neg_pos hn), Int32.neg_neg, toSize_ofNat hn]

theorem subInt_ofNat (hfuel : 0 < fuel) (hn : n < 2 ^ 31) :
    it.subInt lst junk fuel (Int32.ofNat n) = it.prevBy lst junk fuel n := by
  rcases Nat.eq_zero_or_pos n with rfl | hpos
  · exact (prevBy_zero junk hfuel).symm
  · rw [TIterator.subInt, if_pos ((ofNat_pos_iff hn).2 hpos), toSize_ofNat hn]

theorem subInt_neg (hn : n < 2 ^ 31) :
    it.subInt lst junk fuel (-Int32.ofNat n) = it.nextBy lst junk fuel n := by
  rw [TIterator.subInt, if_neg (not_neg_pos hn), Int32.neg_neg, toSize_ofNat hn]

end

/-- A string without empty chunks, however it is cut. -/
theorem index_arithmetic (lst : TChunkString) (junk : TChunk) (hne : ∀ c ∈ lst, c ≠ []) :
    IndexArithmetic lst junk where
  unique _ _ _ h h' := h.eq h'
  begin_add i fuel hi hfuel := by
    have hbegin : Denotes lst begin 0 := denotes_front [] hne
    obtain ⟨it, hit, hden⟩ := hbegin.nextBy junk hne (n := i) (by omega) hfuel
    rw [Nat.zero_add] at hden
    exact ⟨it, hit, hden, hden.deref junk⟩
  end_sub k fuel hk hfuel := Denotes.last.prevBy junk hne hk hfuel
  prev_next it i h hi := by
    have hnext := h.next junk hne hi
    exact ⟨hnext, (hnext.prev junk hne).eq h⟩
  next_prev it i h := by
    have hprev := h.prev junk hne
    exact ⟨hprev, (hprev.next junk hne (by have := h.le; omega)).eq h⟩
  add _ _ _ _ h hi hfuel := nextBy_eq_iterate junk hne h hi hfuel
  sub _ _ _ _ h hi hfuel := prevBy_eq_iterate junk hne h hi hfuel
  addInt it i n fuel h hi hfuel hn := by
    rw [addInt_ofNat junk (Nat.zero_lt_of_lt hfuel) hn, subInt_neg junk hn,
      nextBy_eq_iterate junk hne h hi hfuel]
    exact ⟨rfl, rfl⟩
  subInt it i n fuel h hi hfuel hn := by
    rw [subInt_ofNat junk (Nat.zero_lt_of_lt hfuel) hn, addInt_neg junk hn,
      prevBy_eq_iterate junk hne h hi hfuel]
    exact ⟨rfl, rfl⟩
  cutFront _ _ h := h.cutFront junk
  cutBack _ _ h := h.cutBack junk
  find a _ _ _ _ _ hfirst hlast hij hfuel := hfirst.finds junk a hlast hij hfuel

theorem index_arithmetic_two : (∀ c ∈ ([[97, 98], [99]] : TChunkString), c ≠ []) ∧
    IndexArithmetic [[97, 98], [99]] [] :=
  ⟨by decide, index_arithmetic _ _ (by decide)⟩

/-! ### Comparisons -/

section Comparisons

variable {x y s t b : List UInt8} {r : ℤ}

/-- The sign of `r` is that of the lexicographic comparison of `x` with `y`. -/
structure Compares (r : ℤ) (x y : List UInt8) : Prop where
  neg_iff : r < 0 ↔ x < y
  eq_zero_iff : r = 0 ↔ x = y

theorem lt_iff_not_lt_and_ne : y < x ↔ ¬x < y ∧ x ≠ y := by
  constructor
  · intro h
    exact ⟨List.lt_asymm h, fun heq => List.lt_irrefl _ (heq ▸ h)⟩
  · rintro ⟨hlt, hne⟩
    by_contra hyx
    exact hne (List.le_antisymm (List.not_lt.1 hyx) (List.not_lt.1 hlt))

theorem Compares.pos_iff (h : Compares r x y) : 0 < r ↔ y < x := by
  rw [lt_iff_not_lt_and_ne, ← h.neg_iff, ne_eq, ← h.eq_zero_iff]
  omega

theorem append_lt_append_iff (hlen : x.length = y.length) :
    x ++ s < y ++ t ↔ x < y ∨ x = y ∧ s < t := by
  induction x generalizing y with
  | nil =>
    obtain rfl := List.length_eq_zero_iff.1 hlen.symm
    simp
  | cons a x ih =>
    cases y with
    | nil => cases hlen
    | cons b y =>
      rw [List.cons_append, List.cons_append, List.cons_lt_cons_iff, List.cons_lt_cons_iff,
        ih (Nat.succ.inj hlen), List.cons.injEq]
      tauto

/-- A difference in the first bytes decides. -/
theorem Compares.append (h : Compares r x y) (hlen : x.length = y.length) (hr : r ≠ 0) :
    Compares r (x ++ s) (y ++ t) where
  neg_iff := by
    rw [append_lt_append_iff hlen, ← h.neg_iff, ← h.eq_zero_iff]
    simp [hr]
  eq_zero_iff := by
    refine iff_of_false hr fun heq => hr (h.eq_zero_iff.2 ?_)
    exact (List.append_inj heq hlen).1

theorem Compares.append_left (h : Compares r s t) (x : List UInt8) :
    Compares r (x ++ s) (x ++ t) where
  neg_iff := by
    rw [append_lt_append_iff rfl, h.neg_iff]
    simp [List.lt_irrefl]
  eq_zero_iff := by rw [h.eq_zero_iff, List.append_cancel_left_eq]

theorem compares_memcmp (m : TMemcmp) (hlen : x.length = y.length) : Compares (m.compare x y) x y :=
  ⟨m.neg_iff x y hlen, m.eq_zero_iff x y hlen⟩

theorem compares_longer (hs : s ≠ []) : Compares 1 s [] where
  neg_iff := iff_of_false (by decide) (List.not_lt_nil s)
  eq_zero_iff := iff_of_false (by decide) hs

/-- The flat string ends inside of the chunk `x ++ t`. -/
theorem compares_inside (m : TMemcmp) (hlen : x.length = y.length) (ht : t ≠ []) :
    Compares (if m.compare x y = 0 then 1 else m.compare x y) (x ++ t) y := by
  have hcmp := compares_memcmp m hlen
  split
  · next h0 =>
    obtain rfl := hcmp.eq_zero_iff.1 h0
    have hlonger := (compares_longer ht).append_left x
    rwa [List.append_nil] at hlonger
  · next h0 =>
    have happend : Compares (m.compare x y) (x ++ t) (y ++ []) := hcmp.append hlen h0
    rwa [List.append_nil] at happend

/-- The flat string goes on behind the chunk `x`. -/
theorem compares_behind (m : TMemcmp) (hlen : x.length = y.length) (h : Compares r s t) :
    Compares (if m.compare x y ≠ 0 then m.compare x y else r) (x ++ s) (y ++ t) := by
  have hcmp := compares_memcmp m hlen
  split
  · next h0 => exact hcmp.append hlen h0
  · next h0 =>
    obtain rfl := hcmp.eq_zero_iff.1 (not_not.1 h0)
    exact h.append_left x

theorem compares_compare (m : TMemcmp) (a : TChunkString) (b : List UInt8) :
    Compares (compare m a b) a.flatten b := by
  induction a generalizing b with
  | nil =>
    cases b with
    | nil => exact ⟨by simp [compare], by simp [compare]⟩
    | cons d b => exact ⟨by simp [compare], by simp [compare]⟩
  | cons c a ih =>
    rw [compare, List.flatten_cons]
    split
    · next hlen =>
      have htake : (c.take b.length).length = b.length := by
        rw [List.length_take]
        omega
      have hrest : c.drop b.length ++ a.flatten ≠ [] := by
        simp
        omega
      have hinside := compares_inside m htake hrest
      rwa [← List.append_assoc, List.take_append_drop] at hinside
    · next hlen =>
      have htake : c.length = (b.take c.length).length := by
        rw [List.length_take]
        omega
      have hbehind := compares_behind m htake (ih (b.drop c.length))
      rwa [List.take_append_drop] at hbehind

/-- A chunk and the flat string are compared up to the end of the shorter of them. -/
theorem isPrefix_append_iff {c : TChunk} {len : ℕ} (hlen : len = min c.length b.length) :
    b <+: c ++ s ↔ c.take len = b.take len ∧ b.drop len <+: s := by
  rcases Nat.le_total c.length b.length with hle | hle
  · obtain rfl : len = c.length := by omega
    rw [List.take_length]
    constructor
    · intro h
      have hc : c = b.take c.length := by
        have := List.prefix_of_prefix_length_le (List.prefix_append c s) h hle
        exact List.prefix_iff_eq_take.1 this
      refine ⟨hc, ?_⟩
      rw [← List.prefix_append_right_inj c]
      nth_rewrite 1 [hc]
      rwa [List.take_append_drop]
    · rintro ⟨hc, h⟩
      rw [← List.prefix_append_right_inj c] at h
      nth_rewrite 1 [hc] at h
      rwa [List.take_append_drop] at h
  · obtain rfl : len = b.length := by omega
    rw [List.take_length, List.drop_length, List.prefix_iff_eq_take,
      List.take_append_of_le_length hle]
    simp [eq_comm]

theorem startsWith_iff (m : TMemcmp) (a : TChunkString) (b : List UInt8) :
    startsWith m a b = true ↔ b <+: a.flatten := by
  induction a generalizing b with
  | nil => cases b <;> simp [startsWith]
  | cons c a ih =>
    cases b with
    | nil => simp [startsWith]
    | cons d b =>
      have hlen : (c.take (min c.length (d :: b).length)).length =
          ((d :: b).take (min c.length (d :: b).length)).length := by
        rw [List.length_take, List.length_take]
        omega
      rw [startsWith, List.flatten_cons, isPrefix_append_iff rfl, ← m.eq_zero_iff _ _ hlen]
      · split
        · next h0 => exact iff_of_false (by simp) fun h => h0 h.1
        · next h0 =>
          rw [ih]
          exact (and_iff_right (not_not.1 h0)).symm
      · exact List.cons_ne_nil d b

theorem equalLoop_iff (m : TMemcmp) (l : TChunkList) (hlen : l.flatten.length = b.length) :
    l.equalLoop m b = true ↔ l.flatten = b := by
  induction l generalizing b with
  | nil => simpa [TChunkList.equalLoop, eq_comm] using hlen
  | cons c l ih =>
    rw [List.flatten_cons, List.length_append] at hlen
    have htake : c.length = (b.take c.length).length := by
      rw [List.length_take]
      omega
    have hsplit : c ++ l.flatten = b ↔ m.compare c (b.take c.length) = 0 ∧
        l.flatten = b.drop c.length := by
      rw [m.eq_zero_iff _ _ htake]
      constructor
      · rintro rfl
        simp
      · rintro ⟨hc, hl⟩
        rw [hl]
        nth_rewrite 1 [hc]
        exact List.take_append_drop ..
    rw [TChunkList.equalLoop, List.flatten_cons, hsplit]
    split
    · next h0 => simp [h0]
    · next h0 =>
      rw [ih (by rw [List.length_drop]; omega)]
      simp [not_not.1 h0]

theorem equal_iff (m : TMemcmp) (l : TChunkList) (b : List UInt8) :
    l.equal m b = true ↔ l.flatten = b := by
  rw [TChunkList.equal, TChunkList.fullLength_eq]
  split
  · next hlen => exact equalLoop_iff m l hlen
  · next hlen => exact iff_of_false (by simp) fun h => hlen (by rw [h])

/-- However the bytes are cut into chunks, also with empty ones among them. -/
theorem compare_startsWith_equal (m : TMemcmp) (a : TChunkString) (b : List UInt8) :
    (compare m a b < 0 ↔ a.flatten < b) ∧ (compare m a b = 0 ↔ a.flatten = b) ∧
      (0 < compare m a b ↔ b < a.flatten) ∧
      (startsWith m a b = true ↔ b <+: a.flatten) ∧
      (TChunkList.equal m a b = true ↔ compare m a b = 0) := by
  have h := compares_compare m a b
  refine ⟨h.neg_iff, h.eq_zero_iff, h.pos_iff, startsWith_iff m a b, ?_⟩
  rw [equal_iff, h.eq_zero_iff]

end Comparisons

/-! ### Copying -/

section Copying

open Runs

variable {ν : Type} [DecidableEq ν] {dst src : ν} {strings : ν → TChunkString}
  {pre rest : TChunkList} {c : TChunk} {k fuel : ℕ}

theorem appendTurn_end (hsrc : strings src = pre) :
    appendTurn dst src (strings, pre.length) = .exit () (strings, pre.length) := by
  simp [appendTurn, hsrc]

theorem appendTurn_empty (hsrc : strings src = pre ++ [] :: rest) :
    appendTurn dst src (strings, pre.length) = .again (strings, (pre ++ [[]]).length) := by
  simp [appendTurn, hsrc]

theorem appendTurn_push (hsrc : strings src = pre ++ c :: rest) (hc : c ≠ []) :
    appendTurn dst src (strings, pre.length) =
      .again (update strings dst (strings dst ++ [c]), (pre ++ [c]).length) := by
  have hpos : 0 < c.length := List.length_pos_iff.2 hc
  simp [appendTurn, hsrc, hpos]

/-- The loop of `Append`, with the chunks `rest` of another string to go. -/
theorem turns_appendTurn (hne : dst ≠ src) (pre rest : TChunkList)
    (hsrc : strings src = pre ++ rest) :
    ∃ n r, turns (appendTurn dst src) n (strings, pre.length) = .exit () r ∧
      (r.1 dst).flatten = (strings dst).flatten ++ rest.flatten ∧ ∀ x ≠ dst, r.1 x = strings x := by
  induction rest generalizing pre strings with
  | nil =>
    rw [List.append_nil] at hsrc
    refine ⟨1, (strings, pre.length), ?_, by simp, fun _ _ => rfl⟩
    rw [turns, appendTurn_end hsrc]
  | cons c rest ih =>
    have hsrc' : strings src = (pre ++ [c]) ++ rest := by
      rw [hsrc, List.append_assoc, List.singleton_append]
    by_cases hc : c = []
    · subst hc
      obtain ⟨n, r, hn, hdst, hothers⟩ := ih _ hsrc'
      exact ⟨n + 1, r, by rw [turns_again (appendTurn_empty hsrc), hn], hdst, hothers⟩
    · have hsrc'' : update strings dst (strings dst ++ [c]) src = (pre ++ [c]) ++ rest := by
        rwa [update_of_ne hne.symm]
      obtain ⟨n, r, hn, hdst, hothers⟩ := ih _ hsrc''
      refine ⟨n + 1, r, by rw [turns_again (appendTurn_push hsrc hc), hn], ?_, fun x hx => ?_⟩
      · rw [hdst, update_self]
        simp
      · rw [hothers x hx, update_of_ne hx]

/-- A string without a byte is left as it is, also by itself. -/
theorem turns_appendTurn_empty (dst : ν) (pre rest : TChunkList) (hsrc : strings src = pre ++ rest)
    (hrest : rest.flatten = []) :
    ∃ n k, turns (appendTurn dst src) n (strings, pre.length) = .exit () (strings, k) := by
  induction rest generalizing pre with
  | nil =>
    rw [List.append_nil] at hsrc
    refine ⟨1, pre.length, ?_⟩
    rw [turns, appendTurn_end hsrc]
  | cons c rest ih =>
    obtain ⟨rfl, hrest⟩ := List.append_eq_nil_iff.1 hrest
    obtain ⟨n, k, hn⟩ := ih (pre ++ [[]]) (by simpa using hsrc) hrest
    exact ⟨n + 1, k, by rw [turns_again (appendTurn_empty hsrc), hn]⟩

/-- The loop adds the chunks that it goes through to those that it still has to go through. -/
theorem turns_appendTurn_self (pre rest : TChunkList) (hsrc : strings src = pre ++ rest)
    (hrest : rest.flatten ≠ []) (n : ℕ) (r : (ν → TChunkString) × ℕ) :
    turns (appendTurn src src) n (strings, pre.length) ≠ .exit () r := by
  induction n generalizing strings pre rest with
  | zero => simp [turns]
  | succ n ih =>
    cases rest with
    | nil => exact absurd rfl hrest
    | cons c rest =>
      by_cases hc : c = []
      · subst hc
        rw [turns_again (appendTurn_empty hsrc)]
        exact ih _ rest (by rw [hsrc, List.append_assoc, List.singleton_append]) hrest
      · rw [turns_again (appendTurn_push hsrc hc)]
        exact ih _ (rest ++ [c]) (by simp [hsrc]) (by simp [hc])

/-- `dst.Append(src)` ends and leaves the bytes of both in `dst`, and `dst = src` leaves those of
`src` there; nothing else changes. -/
structure Copies (dst src : ν) (strings : ν → TChunkString) : Prop where
  append : ∃ fuel r, append fuel dst src strings = some r ∧
    (r dst).flatten = (strings dst).flatten ++ (strings src).flatten ∧ ∀ x ≠ dst, r x = strings x
  assign : ∃ fuel r, assign fuel dst src strings = some r ∧
    (r dst).flatten = (strings src).flatten ∧ ∀ x ≠ dst, r x = strings x

theorem append_of_ne (hne : dst ≠ src) (strings : ν → TChunkString) :
    ∃ fuel r, append fuel dst src strings = some r ∧
    (r dst).flatten = (strings dst).flatten ++ (strings src).flatten ∧
      ∀ x ≠ dst, r x = strings x := by
  obtain ⟨n, r, hn, hdst, hothers⟩ :=
    turns_appendTurn hne [] (strings src) (show strings src = _ from rfl)
  exact ⟨n, r.1, by rw [append, ← List.length_nil, hn], hdst, hothers⟩

theorem append_of_empty (dst : ν) (hsrc : (strings src).flatten = []) :
    ∃ fuel, append fuel dst src strings = some strings := by
  obtain ⟨n, k, hn⟩ :=
    turns_appendTurn_empty dst [] (strings src) (show strings src = _ from rfl) hsrc
  exact ⟨n, by rw [append, ← List.length_nil, hn]⟩

theorem append_self (hsrc : (strings src).flatten ≠ []) : append fuel src src strings = none := by
  have hturns := turns_appendTurn_self [] (strings src) (show strings src = _ from rfl) hsrc fuel
  rw [append]
  split
  · next strings' k h => exact absurd h (hturns (strings', k))
  · rfl

/-- A string with bytes is not to be appended or assigned to itself. -/
theorem copies_iff (dst src : ν) (strings : ν → TChunkString) :
    Copies dst src strings ↔ dst ≠ src ∨ (strings src).flatten = [] := by
  constructor
  · intro h
    by_contra hself
    obtain ⟨rfl, hbytes⟩ := not_or.1 hself |>.imp_left not_not.1
    obtain ⟨fuel, r, hr, -⟩ := h.append
    rw [append_self hbytes] at hr
    cases hr
  · intro h
    by_cases hne : dst = src
    · subst hne
      have hempty : (strings dst).flatten = [] := h.resolve_left (not_not.2 rfl)
      obtain ⟨fuel, hfuel⟩ := append_of_empty dst hempty
      obtain ⟨fuel', hfuel'⟩ :=
        append_of_empty dst (show (update strings dst [] dst).flatten = [] by simp)
      refine ⟨⟨fuel, strings, hfuel, by simp [hempty], fun _ _ => rfl⟩, fuel', _,
        hfuel', by simp [hempty], ?_⟩
      exact fun x hx => update_of_ne hx _ _
    · refine ⟨append_of_ne hne strings, ?_⟩
      obtain ⟨fuel, r, hr, hdst, hothers⟩ := append_of_ne hne (update strings dst [])
      rw [update_self, update_of_ne (Ne.symm hne)] at hdst
      exact ⟨fuel, r, hr, hdst, fun x hx => by rw [hothers x hx, update_of_ne hx]⟩

theorem append_assign_self : (¬∃ fuel r, append fuel () () (fun _ => [[97]]) = some r) ∧
    assign 1 () () (fun _ => [[97]]) = some fun _ => [] := by
  refine ⟨?_, rfl⟩
  rintro ⟨fuel, r, hr⟩
  rw [append_self (by decide)] at hr
  cases hr

end Copying

end TChunkString

end Balancer
