import Balancer.Kernel.Iterator

/-!
# Cutting lists and reading through an iterator

`Split` cuts the bytes of a list whichever of its arguments are the same list; it pushes an empty
chunk exactly when the cut falls on the start of a chunk (`split_refs_iff`). A `TStreamIterator`
works on its buffer and on the answers of its slave as on one flat string, whatever calls are made
and however the slave cuts its data, ends and goes on (`iterator_flat`).
-/

namespace Balancer

open BlockIO

/-! ### `Split` -/

namespace TChunkList

/-- The first `len` bytes end where a chunk of the list starts. -/
def StartsAt (len : Nat) (lst : TChunkList) : Prop :=
  ∃ pre c post, lst = pre ++ c :: post ∧ pre.flatten.length = len

theorem not_startsAt_nil (len : Nat) : ¬StartsAt len [] := by
  rintro ⟨pre, c, post, h, -⟩
  simp at h

theorem startsAt_cons_zero (cur : TChunk) (lst : TChunkList) : StartsAt 0 (cur :: lst) :=
  ⟨[], cur, lst, rfl, rfl⟩

theorem startsAt_cons {cur : TChunk} {lst : TChunkList} {len : Nat} (h : len ≠ 0) :
    StartsAt len (cur :: lst) ↔ cur.length ≤ len ∧ StartsAt (len - cur.length) lst := by
  constructor
  · rintro ⟨pre, c, post, hl, rfl⟩
    cases pre with
    | nil => exact absurd rfl h
    | cons d pre =>
      cases hl
      exact ⟨by simp, pre, c, post, rfl, by simp⟩
  · rintro ⟨hle, pre, c, post, rfl, hlen⟩
    refine ⟨cur :: pre, c, post, rfl, ?_⟩
    rw [List.flatten_cons, List.length_append]
    omega

/-- What `Split` hands out has an empty chunk when the cut falls on the start of a chunk. -/
theorem split_fst_ne_nil_iff {len : Nat} {lst : TChunkList} (h : ∀ c ∈ lst, c ≠ []) :
    (∀ c ∈ (split len lst).1, c ≠ []) ↔ ¬StartsAt len lst := by
  induction lst generalizing len with
  | nil => exact iff_of_true (by simp [split_nil]) (not_startsAt_nil len)
  | cons cur lst ih =>
    have hcur := List.length_pos_iff.2 (h cur (List.mem_cons_self ..))
    have hlst : ∀ c ∈ lst, c ≠ [] := (List.forall_mem_cons.1 h).2
    by_cases hlen : cur.length ≤ len
    · rw [split_cons_le hlen, List.forall_mem_cons, ih hlst, startsAt_cons (by omega)]
      simp [hlen, List.length_pos_iff.1 hcur]
    · rw [split_cons_gt (Nat.lt_of_not_le hlen), List.forall_mem_singleton]
      by_cases h0 : len = 0
      · subst h0
        exact iff_of_false (by simp) (not_not_intro (startsAt_cons_zero cur lst))
      · rw [startsAt_cons h0]
        exact iff_of_true (by simpa [h0] using List.length_pos_iff.1 hcur) fun hs => hlen hs.1

/-! Lists by reference. -/

section References
variable {ν : Type} [DecidableEq ν] {before after : ν}

theorem splitRef_before (h : before ≠ after) (len : Nat) (src : ν) (lists : ν → TChunkList) :
    splitRef len src before after lists before = (split len (lists src)).1 := by
  simp [splitRef, split, h]

theorem splitRef_after (len : Nat) (src before after : ν) (lists : ν → TChunkList) :
    splitRef len src before after lists after = (split len (lists src)).2 := by
  simp [splitRef, split]

end References

end TChunkList

open TChunkList

/-- Every list without empty chunks and every length, whichever of the lists that are given to
`Split` are the same list: the bytes are cut at `len`, and neither result has an empty chunk, if and
only if `len` does not fall on the start of a chunk. -/
theorem split_refs_iff {ν : Type} [DecidableEq ν] (lists : ν → TChunkList) (src before after : ν)
    (hba : before ≠ after) (hsrc : ∀ c ∈ lists src, c ≠ []) (len : Nat) :
    ((splitRef len src before after lists before).flatten =
          (lists src).flatten.take (min len (lists src).fullLength) ∧
        (splitRef len src before after lists after).flatten =
          (lists src).flatten.drop (min len (lists src).fullLength) ∧
        (∀ c ∈ splitRef len src before after lists before, c ≠ []) ∧
        ∀ c ∈ splitRef len src before after lists after, c ≠ []) ↔
      ¬StartsAt len (lists src) := by
  rw [splitRef_before hba, splitRef_after, split_fst_flatten, split_snd_flatten,
    split_fst_ne_nil_iff hsrc, fullLength_eq]
  have hbytes : ∀ xs : List UInt8, xs.take len = xs.take (min len xs.length) ∧
      xs.drop len = xs.drop (min len xs.length) := by
    intro xs
    rcases Nat.le_total len xs.length with h | h
    · simp [h]
    · simp [h]
  exact ⟨fun h => h.2.2.1, fun h => ⟨(hbytes _).1, (hbytes _).2, h, split_snd_ne_nil hsrc⟩⟩

/-- A cut inside a chunk, with `from` given for `after` as well. -/
theorem split_refs_inside :
    (∀ c ∈ splitRef 1 false true false (fun _ => [[1, 2], [3]]) true, c ≠ []) ∧
    ∀ c ∈ splitRef 1 false true false (fun _ => [[1, 2], [3]]) false, c ≠ [] := by
  have h := (split_refs_iff (fun _ => [[1, 2], [3]]) false true false (by decide) (by decide) 1).2
    (by
    rw [startsAt_cons (by decide)]
    exact fun h => absurd h.1 (by decide))
  exact h.2.2

/-- A cut between two chunks, with `from` given for `after` as well: `Next(2, lst)` with these two
in the buffer. -/
theorem split_refs_boundary : (∀ c ∈ [[1, 2], [3]], c ≠ ([] : TChunk)) ∧
    ¬∀ c ∈ splitRef 2 false true false (fun _ => [[1, 2], [3]]) true, c ≠ [] := by
  decide

/-! ### Calls of an iterator -/

/-- The calls of `TStreamIterator`: `Peek()`, `Next()`, `Next(len, lst)`, `Next(lst)`, the two
`Read`s and `UnGet`. -/
inductive TIteratorCall where
  | peek
  | next
  | nextLen (len : Nat)
  | nextAll
  | read (len : Nat)
  | readList (len : Nat)
  | unGet (data : TChunkList)
  deriving DecidableEq, Repr

/-- What a call returns, or hands out in an output list that was empty. -/
inductive TIteratorAnswer where
  | there (b : Bool)
  | char (b : UInt8)
  | chunks (lst : TChunkList)
  | bytes (buf : List UInt8)
  | done
  deriving DecidableEq, Repr

namespace TStreamIterator

variable {σ : Type} [IIoInput σ]

def call (it : TStreamIterator σ) :
    TIteratorCall → Except TException TIteratorAnswer × TStreamIterator σ
  | .peek => (it.peek.1.map .there, it.peek.2)
  | .next => (it.next.1.map .char, it.next.2)
  | .nextLen len => ((it.nextLen len).1.map .chunks, (it.nextLen len).2)
  | .nextAll => (it.nextAll.1.map .chunks, it.nextAll.2)
  | .read len => ((it.read len).1.map .bytes, (it.read len).2)
  | .readList len => ((it.readList len).1.map .chunks, (it.readList len).2)
  | .unGet data => (.ok .done, it.unGet data)

/-- One call after the other; a call that throws leaves the iterator to the next one. -/
def calls (it : TStreamIterator σ) :
    List TIteratorCall → List (Except TException TIteratorAnswer) × TStreamIterator σ
  | [] => ([], it)
  | c :: cs => ((it.call c).1 :: ((it.call c).2.calls cs).1, ((it.call c).2.calls cs).2)

end TStreamIterator

/-! ### The flat string -/

abbrev TCell := Cell TException UInt8

/-- What a reader that needs data throws when the stream is over. -/
def noData (f : Option TException) : TException := f.getD (.streamError "no data")

/-- The answer of a call to the bytes in front of it, and what is left of them. The stream is over
at a `stop`, which the call that meets it uses up: the call after it asks the slave again. -/
inductive FlatCall : List TCell → TIteratorCall → Except TException TIteratorAnswer → List TCell →
    Prop
  | peek {b w} : FlatCall (.elem b :: w) .peek (.ok (.there true)) (.elem b :: w)
  | peek_over {f w} :
    FlatCall (.stop f :: w) .peek (f.elim (.ok (.there false)) .error) w
  | next {b w} : FlatCall (.elem b :: w) .next (.ok (.char b)) w
  | next_over {f w} : FlatCall (.stop f :: w) .next (.error (noData f)) w
  | nextLen {lst : TChunkList} {len w} : (0 < len → lst.flatten ≠ []) → lst.flatten.length ≤ len →
    FlatCall (elems lst.flatten ++ w) (.nextLen len) (.ok (.chunks lst)) w
  | nextLen_over {len f w} :
    FlatCall (.stop f :: w) (.nextLen len) (f.elim (.ok (.chunks [])) .error) w
  | nextAll {lst : TChunkList} {w} : lst.flatten ≠ [] →
    FlatCall (elems lst.flatten ++ w) .nextAll (.ok (.chunks lst)) w
  | nextAll_over {f w} :
    FlatCall (.stop f :: w) .nextAll (f.elim (.ok (.chunks [])) .error) w
  | read {xs : List UInt8} {w} :
    FlatCall (elems xs ++ w) (.read xs.length) (.ok (.bytes xs)) w
  | read_over {xs : List UInt8} {len f w} : xs.length < len →
    FlatCall (elems xs ++ .stop f :: w) (.read len) (.error (noData f)) w
  | readList {lst : TChunkList} {w} :
    FlatCall (elems lst.flatten ++ w) (.readList lst.flatten.length) (.ok (.chunks lst)) w
  | readList_over {xs : List UInt8} {len f w} : xs.length < len →
    FlatCall (elems xs ++ .stop f :: w) (.readList len) (.error (noData f)) w
  | unGet {data w} : FlatCall w (.unGet data) (.ok .done) (elems data.flatten ++ w)

/-- A run of calls on a flat string. -/
inductive FlatCalls :
    List TCell → List TIteratorCall → List (Except TException TIteratorAnswer) → List TCell → Prop
  | nil {w} : FlatCalls w [] [] w
  | cons {w w' w'' c cs r rs} : FlatCall w c r w' → FlatCalls w' cs rs w'' →
    FlatCalls w (c :: cs) (r :: rs) w''

/-- What comes later does not matter to a call. -/
theorem FlatCall.append {w w' : List TCell} {c : TIteratorCall}
    {r : Except TException TIteratorAnswer} (H : FlatCall w c r w') (v : List TCell) :
    FlatCall (w ++ v) c r (w' ++ v) := by
  cases H with
  | peek => exact .peek
  | peek_over => exact .peek_over
  | next => exact .next
  | next_over => exact .next_over
  | nextLen h h' => rw [List.append_assoc]; exact .nextLen h h'
  | nextLen_over => exact .nextLen_over
  | nextAll h => rw [List.append_assoc]; exact .nextAll h
  | nextAll_over => exact .nextAll_over
  | read => rw [List.append_assoc]; exact .read
  | read_over h => rw [List.append_assoc]; exact .read_over h
  | readList => rw [List.append_assoc]; exact .readList
  | readList_over h => rw [List.append_assoc]; exact .readList_over h
  | unGet => rw [List.append_assoc]; exact .unGet

namespace TStreamIterator

variable {σ : Type} [IIoInput σ] {it it' : TStreamIterator σ}

/-- Neither the buffer nor what the slave will hand out has an empty chunk. -/
structure Neat (it : TStreamIterator σ) : Prop where
  buffered : ∀ c ∈ it.l, c ≠ []
  source : Tidy it.s

/-- What is in front of a reader when the slave has answered `ws`. -/
def front (it : TStreamIterator σ) (ws : List TCell) : List TCell := elems it.l.flatten ++ ws

/-- `Peek` asks the slave when the buffer is empty, and finds data or the end of the stream. -/
theorem Neat.peek (H : it.Neat) : ∃ ws, Feeds it.s ws it.peek.2.s ∧ it.peek.2.Neat ∧
    ((it.peek.1 = .ok true ∧ Proper it.peek.2.l ∧ it.front ws = elems it.peek.2.l.flatten) ∨
      ∃ f : Option TException, it.peek.1 = f.elim (.ok false) .error ∧ it.peek.2.l = [] ∧
        it.front ws = [.stop f]) := by
  by_cases hl : it.l = []
  · refine ⟨cells (Source.recv it.s).1, ?_⟩
    have hf := Feeds.single it.s
    have htidy := H.source.recv_snd
    cases hr : (Source.recv it.s).1 with
    | error e =>
      rw [hr] at hf
      rw [peek_error hl hr]
      exact ⟨hf, ⟨by simp, htidy⟩, .inr ⟨some e, rfl, rfl, by simp [front, hl, cells]⟩⟩
    | ok l =>
      rw [hr] at hf
      rw [peek_ok hl hr]
      have hne := H.source.recv_ok hr
      refine ⟨hf, ⟨hne, htidy⟩, ?_⟩
      cases l with
      | nil => exact .inr ⟨none, rfl, rfl, by simp [front, hl, cells]⟩
      | cons c l =>
        exact .inl ⟨rfl, ⟨List.cons_ne_nil _ _, hne⟩, by simp [front, hl, cells]⟩
  · refine ⟨[], ?_⟩
    rw [peek_buffered hl]
    exact ⟨.refl _, H, .inl ⟨rfl, ⟨hl, H.buffered⟩, by simp [front]⟩⟩

theorem next_of_end (len : Nat) {f : Option TException}
    (h : it.peek.1 = f.elim (.ok false) .error) :
    it.nextLen len = (f.elim (.ok []) .error, it.peek.2) ∧
      it.nextAll = (f.elim (.ok []) .error, it.peek.2) := by
  have hp : it.peek = (f.elim (.ok false) .error, it.peek.2) := Prod.ext h rfl
  rw [nextLen, nextAll, hp]
  cases f <;> exact ⟨rfl, rfl⟩

/-- `Next(len, lst)` cuts its bytes from the front, or finds the end of the stream. -/
theorem Neat.nextLen (H : it.Neat) (len : Nat) :
    ∃ ws, Feeds it.s ws (it.nextLen len).2.s ∧ (it.nextLen len).2.Neat ∧
      ((∃ lst, (it.nextLen len).1 = .ok lst ∧ (0 < len → lst.flatten ≠ []) ∧
        lst.flatten.length ≤ len ∧
          it.front ws = elems lst.flatten ++ elems (it.nextLen len).2.l.flatten) ∨
        ∃ f : Option TException, (it.nextLen len).1 = f.elim (.ok []) .error ∧
          (it.nextLen len).2.l = [] ∧ it.front ws = [.stop f]) := by
  obtain ⟨ws, hf, hneat, ⟨hr, hl, hfront⟩ | ⟨f, hr, hl, hfront⟩⟩ := H.peek
  · have hp : it.peek = (.ok true, it.peek.2) := Prod.ext hr rfl
    rw [nextLen_of_peek hp]
    refine ⟨ws, hf, ⟨TChunkList.split_snd_ne_nil hneat.buffered, hneat.source⟩,
      .inl ⟨_, rfl, ?_, ?_, ?_⟩⟩
    · intro hlen
      have hpos := List.length_pos_iff.2 hl.hasData
      rw [TChunkList.split_fst_flatten, ← List.length_pos_iff, List.length_take]
      omega
    · rw [TChunkList.split_fst_flatten, List.length_take]
      exact Nat.min_le_left ..
    · rw [hfront, ← elems_append]
      simp
  · rw [(next_of_end len hr).1]
    exact ⟨ws, hf, hneat, .inr ⟨f, rfl, hl, hfront⟩⟩

theorem Neat.nextAll (H : it.Neat) :
    ∃ ws, Feeds it.s ws it.nextAll.2.s ∧ it.nextAll.2.Neat ∧ it.nextAll.2.l = [] ∧
      ((∃ lst, it.nextAll.1 = .ok lst ∧ lst.flatten ≠ [] ∧ it.front ws = elems lst.flatten) ∨
        ∃ f : Option TException, it.nextAll.1 = f.elim (.ok []) .error ∧
        it.front ws = [.stop f]) := by
  obtain ⟨ws, hf, hneat, ⟨hr, hl, hfront⟩ | ⟨f, hr, hl, hfront⟩⟩ := H.peek
  · have hp : it.peek = (.ok true, it.peek.2) := Prod.ext hr rfl
    rw [nextAll_of_peek hp]
    exact ⟨ws, hf, ⟨by simp, hneat.source⟩, rfl, .inl ⟨_, rfl, hl.hasData, hfront⟩⟩
  · rw [(next_of_end 0 hr).2]
    exact ⟨ws, hf, hneat, hl, .inr ⟨f, rfl, hfront⟩⟩

theorem Neat.next (H : it.Neat) :
    ∃ ws, Feeds it.s ws it.next.2.s ∧ it.next.2.Neat ∧
      ((∃ b, it.next.1 = .ok b ∧ it.front ws = .elem b :: elems it.next.2.l.flatten) ∨
        ∃ f, it.next.1 = .error (noData f) ∧ it.next.2.l = [] ∧ it.front ws = [.stop f]) := by
  rw [next_snd]
  obtain ⟨ws, hf, hneat, ⟨lst, hr, hne, hlen, hfront⟩ | ⟨f, hr, hl, hfront⟩⟩ := H.nextLen 1
  · refine ⟨ws, hf, hneat, .inl ?_⟩
    have hpos := List.length_pos_iff.2 (hne Nat.one_pos)
    obtain ⟨b, hb⟩ := List.length_eq_one_iff.1 (Nat.le_antisymm hlen hpos)
    have hn : it.nextLen 1 = (.ok lst, (it.nextLen 1).2) := Prod.ext hr rfl
    refine ⟨b, ?_, by rw [hfront, hb]; rfl⟩
    rw [TStreamIterator.next, readSome, hn]
    simp [TChunkList.copyData_eq, hb]
  · refine ⟨ws, hf, hneat, .inr ⟨f, ?_, hl, hfront⟩⟩
    have hn : it.nextLen 1 = (f.elim (.ok []) .error, (it.nextLen 1).2) := Prod.ext hr rfl
    rw [TStreamIterator.next, readSome, hn]
    cases f with
    | none => rfl
    | some e => rfl

/-- `Read(lst, len)` goes on until it has `len` bytes or meets the end of the stream. -/
theorem Neat.readList (H : it.Neat) (len : Nat) :
    ∃ ws, Feeds it.s ws (it.readList len).2.s ∧ (it.readList len).2.Neat ∧
      ((∃ lst, (it.readList len).1 = .ok lst ∧ lst.flatten.length = len ∧
          it.front ws = elems lst.flatten ++ elems (it.readList len).2.l.flatten) ∨
        ∃ xs f, (it.readList len).1 = .error (noData f) ∧ xs.length < len ∧
          (it.readList len).2.l = [] ∧ it.front ws = elems xs ++ [.stop f]) := by
  induction len using Nat.strongRecOn generalizing it with
  | ind len ih =>
    by_cases h0 : len = 0
    · rw [TStreamIterator.readList, if_pos h0]
      exact ⟨[], .refl _, H, .inl ⟨[], rfl, h0.symm, by simp [front]⟩⟩
    obtain ⟨ws, hf, hneat, ⟨tmp, hr, hne, hlen, hfront⟩ | ⟨f, hr, hl, hfront⟩⟩ := H.nextLen len
    · have hn : it.nextLen len = (.ok tmp, (it.nextLen len).2) := Prod.ext hr rfl
      have hpos := List.length_pos_iff.2 (hne (Nat.pos_of_ne_zero h0))
      rw [readList_ok h0 hn, TChunkList.fullLength_eq, if_neg (by omega)]
      -- what the rest of the loop reads comes after the bytes of this turn
      obtain ⟨vs, hg, hneat', hrest⟩ := ih (len - tmp.flatten.length) (by omega) hneat
      have hfront' : it.front (ws ++ vs) = elems tmp.flatten ++ (it.nextLen len).2.front vs := by
        rw [front, ← List.append_assoc, ← front, hfront, List.append_assoc, ← front]
      refine ⟨ws ++ vs, hf.trans hg, hneat', ?_⟩
      rcases hrest with ⟨lst, hr', hlen', hfr⟩ | ⟨xs, f, hr', hlen', hl', hfr⟩
      · refine .inl ⟨tmp ++ lst, by rw [hr']; rfl, ?_, ?_⟩
        · rw [List.flatten_append, List.length_append]
          omega
        · rw [hfront', hfr, List.flatten_append, elems_append, List.append_assoc]
      · refine .inr ⟨tmp.flatten ++ xs, f, by rw [hr']; rfl, ?_, hl', ?_⟩
        · rw [List.length_append]
          omega
        · rw [hfront', hfr, elems_append, List.append_assoc]
    · have hn : it.nextLen len = (f.elim (.ok []) .error, (it.nextLen len).2) := Prod.ext hr rfl
      have hread : it.readList len = (.error (noData f), (it.nextLen len).2) := by
        cases f with
        | none => exact (readList_ok h0 hn).trans (if_pos rfl)
        | some e => exact readList_error h0 hn
      rw [hread]
      exact ⟨ws, hf, hneat, .inr ⟨[], f, rfl, Nat.pos_of_ne_zero h0, hl, hfront⟩⟩

/-- A call works on the buffer and on what the slave answers in it as on a flat string. -/
theorem Neat.call (H : it.Neat) {c : TIteratorCall}
    (hc : ∀ data, c = .unGet data → ∀ b ∈ data, b ≠ []) :
    ∃ ws, Feeds it.s ws (it.call c).2.s ∧ (it.call c).2.Neat ∧
      FlatCall (it.front ws) c (it.call c).1 (elems (it.call c).2.l.flatten) := by
  cases c with
  | peek =>
    obtain ⟨ws, hf, hneat, ⟨hr, hl, hfront⟩ | ⟨f, hr, hl, hfront⟩⟩ := H.peek
    · refine ⟨ws, hf, hneat, ?_⟩
      obtain ⟨b, bs, hb⟩ := List.exists_cons_of_ne_nil hl.hasData
      rw [hfront, TStreamIterator.call, hr, hb]
      exact .peek
    · refine ⟨ws, hf, hneat, ?_⟩
      rw [hfront, TStreamIterator.call, hr, hl]
      cases f <;> exact .peek_over
  | next =>
    obtain ⟨ws, hf, hneat, ⟨b, hr, hfront⟩ | ⟨f, hr, hl, hfront⟩⟩ := H.next
    · refine ⟨ws, hf, hneat, ?_⟩
      rw [hfront, TStreamIterator.call, hr]
      exact .next
    · refine ⟨ws, hf, hneat, ?_⟩
      rw [hfront, TStreamIterator.call, hr, hl]
      exact .next_over
  | nextLen len =>
    obtain ⟨ws, hf, hneat, ⟨lst, hr, hne, hlen, hfront⟩ | ⟨f, hr, hl, hfront⟩⟩ := H.nextLen len
    · refine ⟨ws, hf, hneat, ?_⟩
      rw [hfront, TStreamIterator.call, hr]
      exact .nextLen hne hlen
    · refine ⟨ws, hf, hneat, ?_⟩
      rw [hfront, TStreamIterator.call, hr, hl]
      cases f <;> exact .nextLen_over
  | nextAll =>
    obtain ⟨ws, hf, hneat, hl, ⟨lst, hr, hne, hfront⟩ | ⟨f, hr, hfront⟩⟩ := H.nextAll
    · refine ⟨ws, hf, hneat, ?_⟩
      rw [hfront, TStreamIterator.call, hr, hl, ← List.append_nil (elems lst.flatten)]
      exact .nextAll hne
    · refine ⟨ws, hf, hneat, ?_⟩
      rw [hfront, TStreamIterator.call, hr, hl]
      cases f <;> exact .nextAll_over
  | read len =>
    rw [TStreamIterator.call, read_eq_readList]
    obtain ⟨ws, hf, hneat, ⟨lst, hr, rfl, hfront⟩ | ⟨xs, f, hr, hlen, hl, hfront⟩⟩ := H.readList len
    · refine ⟨ws, hf, hneat, ?_⟩
      rw [hfront, hr]
      exact .read
    · refine ⟨ws, hf, hneat, ?_⟩
      rw [hfront, hr, hl]
      exact .read_over hlen
  | readList len =>
    obtain ⟨ws, hf, hneat, ⟨lst, hr, rfl, hfront⟩ | ⟨xs, f, hr, hlen, hl, hfront⟩⟩ := H.readList len
    · refine ⟨ws, hf, hneat, ?_⟩
      rw [hfront, TStreamIterator.call, hr]
      exact .readList
    · refine ⟨ws, hf, hneat, ?_⟩
      rw [hfront, TStreamIterator.call, hr, hl]
      exact .readList_over hlen
  | unGet data =>
    refine ⟨[], .refl _, ⟨List.forall_mem_append.2 ⟨hc data rfl, H.buffered⟩, H.source⟩, ?_⟩
    · rw [front, List.append_nil, TStreamIterator.call, TStreamIterator.unGet, List.flatten_append,
        elems_append]
      exact .unGet

theorem Neat.calls (H : it.Neat) {cs : List TIteratorCall}
    (hcs : ∀ data, .unGet data ∈ cs → ∀ b ∈ data, b ≠ []) :
    ∃ ws, Feeds it.s ws (it.calls cs).2.s ∧ (it.calls cs).2.Neat ∧
      FlatCalls (it.front ws) cs (it.calls cs).1 (elems (it.calls cs).2.l.flatten) := by
  induction cs generalizing it with
  | nil => exact ⟨[], .refl _, H, by rw [front, List.append_nil]; exact .nil⟩
  | cons c cs ih =>
    have hc : ∀ data, c = .unGet data → ∀ b ∈ data, b ≠ [] :=
      fun data h => hcs data (h ▸ List.mem_cons_self ..)
    obtain ⟨ws, hf, hneat, hcall⟩ := H.call hc
    obtain ⟨vs, hg, hneat', hcalls⟩ := ih hneat fun data h => hcs data (List.mem_cons_of_mem _ h)
    refine ⟨ws ++ vs, hf.trans hg, hneat', ?_⟩
    rw [front, ← List.append_assoc]
    exact .cons (hcall.append vs) hcalls

end TStreamIterator

/-- Every slave whose lists have no empty chunks, and every sequence of calls that puts back no
empty chunks: the calls answer as on the flat string of all that the slave was asked for (`ws`), and
what is left of the string is what is left in the buffer. -/
theorem iterator_flat {σ : Type} [IIoInput σ] (s : σ) (hs : Tidy s) (cs : List TIteratorCall)
    (hcs : ∀ data, .unGet data ∈ cs → ∀ b ∈ data, b ≠ []) :
    ∃ ws, Feeds s ws ((TStreamIterator.mk s []).calls cs).2.s ∧
      FlatCalls ws cs ((TStreamIterator.mk s []).calls cs).1
        (elems ((TStreamIterator.mk s []).calls cs).2.l.flatten) := by
  have hneat : (TStreamIterator.mk s []).Neat := ⟨by simp, hs⟩
  obtain ⟨ws, hf, -, hcalls⟩ := hneat.calls hcs
  exact ⟨ws, hf, hcalls⟩

/-- A slave that hands out three bytes, ends, and goes on with a fourth one. -/
def resumed : TScript := ⟨[[[1], [2, 3]], [], [[4]]], none⟩

theorem iterator_flat_resumed :
    ∃ ws, Feeds resumed ws
        ((TStreamIterator.mk resumed []).calls [.nextLen 2, .unGet [[9]], .read 5, .next,
          .peek]).2.s ∧
      FlatCalls ws [.nextLen 2, .unGet [[9]], .read 5, .next, .peek]
        [.ok (.chunks [[1], [2]]), .ok .done, .error (.streamError "no data"), .ok (.char 4),
          .ok (.there false)] [] := by
  have h := iterator_flat resumed (Script.tidy (by decide) none)
    [.nextLen 2, .unGet [[9]], .read 5, .next, .peek] (by simp)
  have hr : ((TStreamIterator.mk resumed []).calls [.nextLen 2, .unGet [[9]], .read 5, .next,
      .peek]).1 =
      [.ok (.chunks [[1], [2]]), .ok .done, .error (.streamError "no data"), .ok (.char 4),
        .ok (.there false)] := by decide +kernel
  have hl : ((TStreamIterator.mk resumed []).calls
      [.nextLen 2, .unGet [[9]], .read 5, .next, .peek]).2.l = [] := by decide +kernel
  rwa [hr, hl] at h

end Balancer
