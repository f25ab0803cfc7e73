import Balancer.Kernel.IoBase

/-!
# Stream iterators

`kernel/iterator.h`: an input with a buffer of received and not yet consumed chunks. The invariant
`TStreamIterator.Holds it xs f` says that the bytes `xs` are still to be read from the iterator and
that its input then ends with `f`; every operation takes its bytes from the front of `xs`.
-/

namespace Balancer

open BlockIO TChunkList Source

structure TStreamIterator (σ : Type) where
  s : σ
  l : TChunkList := []

namespace TStreamIterator

variable {σ : Type}

section Operations
variable [IIoInput σ]

def peek (it : TStreamIterator σ) : Except TException Bool × TStreamIterator σ :=
  if it.l = [] then
    match recv it.s with
    | (.error e, s) => (.error e, { it with s })
    | (.ok l, s) => (.ok (!l.isEmpty), ⟨s, l⟩)
  else (.ok true, it)

/-- `Next(len, lst)`, with the list it hands out. -/
def nextLen (len : Nat) (it : TStreamIterator σ) :
    Except TException TChunkList × TStreamIterator σ :=
  match it.peek with
  | (.error e, it) => (.error e, it)
  | (.ok false, it) => (.ok [], it)
  | (.ok true, it) => (.ok (it.l.split len).1, { it with l := (it.l.split len).2 })

/-- `Next(lst)`: everything that is buffered. -/
def nextAll (it : TStreamIterator σ) : Except TException TChunkList × TStreamIterator σ :=
  match it.peek with
  | (.error e, it) => (.error e, it)
  | (.ok false, it) => (.ok [], it)
  | (.ok true, it) => (.ok it.l, { it with l := [] })

def readSome (len : Nat) (it : TStreamIterator σ) :
    Except TException (List UInt8) × TStreamIterator σ :=
  match it.nextLen len with
  | (.error e, it) => (.error e, it)
  | (.ok tmp, it) => (.ok (copyData tmp len), it)

/-- `Next()`: one byte. -/
def next (it : TStreamIterator σ) : Except TException UInt8 × TStreamIterator σ :=
  match it.readSome 1 with
  | (.error e, it) => (.error e, it)
  | (.ok [], it) => (.error (.streamError "no data"), it)
  | (.ok (ch :: _), it) => (.ok ch, it)

def unGet (data : TChunkList) (it : TStreamIterator σ) : TStreamIterator σ :=
  { it with l := data ++ it.l }

/-- `Read(buf, len)`: the bytes written to `buf`. -/
def read (len : Nat) (it : TStreamIterator σ) :
    Except TException (List UInt8) × TStreamIterator σ :=
  if len = 0 then (.ok [], it)
  else
    match it.readSome len with
    | (.error e, it) => (.error e, it)
    | (.ok [], it) => (.error (.streamError "no data"), it)
    | (.ok (b :: bs), it) =>
      match it.read (len - (b :: bs).length) with
      | (.error e, it) => (.error e, it)
      | (.ok rest, it) => (.ok (b :: bs ++ rest), it)
termination_by len
decreasing_by simp only [List.length_cons]; omega

/-- `Read(lst, len)`: the chunks moved to `lst`. -/
def readList (len : Nat) (it : TStreamIterator σ) :
    Except TException TChunkList × TStreamIterator σ :=
  if len = 0 then (.ok [], it)
  else
    match it.nextLen len with
    | (.error e, it) => (.error e, it)
    | (.ok tmp, it) =>
      if tmp.fullLength = 0 then (.error (.streamError "no data"), it)
      else
        match it.readList (len - tmp.fullLength) with
        | (.error e, it) => (.error e, it)
        | (.ok lst, it) => (.ok (tmp ++ lst), it)
termination_by len
decreasing_by omega

end Operations

/-! ### Equations for the operations -/

section Equations
variable [IIoInput σ] {it it' : TStreamIterator σ}

theorem peek_buffered (h : it.l ≠ []) : it.peek = (.ok true, it) := by
  simp [peek, h]

theorem peek_ok (h : it.l = []) {l : TChunkList} (hr : (recv it.s).1 = .ok l) :
    it.peek = (.ok (!l.isEmpty), ⟨(recv it.s).2, l⟩) := by
  simp only [peek, h, if_pos]
  rw [show recv it.s = (.ok l, (recv it.s).2) from Prod.ext hr rfl]

theorem peek_error (h : it.l = []) (hr : (recv it.s).1 = .error e) :
    it.peek = (.error e, ⟨(recv it.s).2, []⟩) := by
  simp only [peek, h, if_pos]
  rw [show recv it.s = (.error e, (recv it.s).2) from Prod.ext hr rfl]

theorem nextLen_of_peek (h : it.peek = (.ok true, it')) (len : Nat) :
    it.nextLen len = (.ok (it'.l.split len).1, ⟨it'.s, (it'.l.split len).2⟩) := by
  simp [nextLen, h]

theorem nextAll_of_peek (h : it.peek = (.ok true, it')) :
    it.nextAll = (.ok it'.l, ⟨it'.s, []⟩) := by
  simp [nextAll, h]

/-- After a successful `Peek` there is something in the buffer. -/
theorem peek_true (h : it.peek = (.ok true, it')) : it'.l ≠ [] := by
  by_cases hl : it.l = []
  · cases hr : (recv it.s).1 with
    | ok l =>
      rw [peek_ok hl hr, Prod.mk.injEq, Except.ok.injEq] at h
      obtain ⟨hne, rfl⟩ := h
      simpa using hne
    | error e => rw [peek_error hl hr] at h; cases h
  · rw [peek_buffered hl] at h
    cases h
    exact hl

end Equations

/-! ### Iterators as inputs -/

section Measures
variable {it it' : TStreamIterator σ}

def turns [IIoInput σ] (it : TStreamIterator σ) : Nat :=
  (if it.l = [] then 0 else 1) + Source.turns it.s

def size [ISizedInput σ] (it : TStreamIterator σ) : Nat :=
  it.l.flatten.length + SizedSource.size it.s

theorem peek_turns [IIoInput σ] (h : it.peek = (r, it')) : it'.turns ≤ it.turns := by
  by_cases hl : it.l = []
  · cases hr : (recv it.s).1 with
    | ok l =>
      rw [peek_ok hl hr] at h
      cases h
      simp only [turns, hl, if_pos]
      split
      · have := turns_le it.s; omega
      · next hne => have := turns_lt hr hne; omega
    | error e =>
      rw [peek_error hl hr] at h
      cases h
      simpa [turns, hl] using turns_le it.s
  · rw [peek_buffered hl] at h
    cases h
    exact Nat.le_refl _

theorem peek_size [ISizedInput σ] (h : it.peek = (r, it')) : it'.size ≤ it.size := by
  by_cases hl : it.l = []
  · cases hr : (recv it.s).1 with
    | ok l =>
      rw [peek_ok hl hr] at h
      cases h
      simpa [size, hl] using SizedSource.size_recv hr
    | error e =>
      rw [peek_error hl hr] at h
      cases h
      simpa [size, hl] using SizedSource.size_le it.s
  · rw [peek_buffered hl] at h
    cases h
    exact Nat.le_refl _

end Measures

/-- The ways a request through `Peek` can go: an exception, the end of the stream, or data in the
buffer. -/
theorem peek_cases [IIoInput σ] (it : TStreamIterator σ) :
    (∃ e it', it.peek = (.error e, it')) ∨ (∃ it', it.peek = (.ok false, it')) ∨
      ∃ it', it.peek = (.ok true, it') := by
  rcases h : it.peek with ⟨_ | _ | _, it'⟩
  · exact .inl ⟨_, _, rfl⟩
  · exact .inr (.inl ⟨_, rfl⟩)
  · exact .inr (.inr ⟨_, rfl⟩)

/-- `TIoStreamIterator::DoRecv` is `Next(lst)`. -/
instance [IIoInput σ] : IIoInput (TStreamIterator σ) where
  recv := nextAll
  turns := turns
  turns_le it := by
    rcases it.peek_cases with ⟨e, it', h⟩ | ⟨it', h⟩ | ⟨it', h⟩
    · simpa [nextAll, h] using peek_turns h
    · simpa [nextAll, h] using peek_turns h
    · have := peek_turns h
      simp only [nextAll_of_peek h]
      simp only [turns, if_true] at this ⊢
      omega
  turns_lt {it l} hr hl := by
    rcases it.peek_cases with ⟨e, it', h⟩ | ⟨it', h⟩ | ⟨it', h⟩
    · simp [nextAll, h] at hr
    · simp [nextAll, h] at hr; exact absurd hr hl
    · have ht := peek_turns h
      have hne := peek_true h
      rw [nextAll_of_peek h]
      simp only [turns, hne, if_neg, not_false_eq_true, if_pos] at ht ⊢
      omega

theorem recv_eq [IIoInput σ] (it : TStreamIterator σ) : recv it = it.nextAll := rfl

instance [ISizedInput σ] : ISizedInput (TStreamIterator σ) where
  size := size
  size_le it := by
    rw [recv_eq]
    rcases it.peek_cases with ⟨e, it', h⟩ | ⟨it', h⟩ | ⟨it', h⟩
    · simpa [nextAll, h] using peek_size h
    · simpa [nextAll, h] using peek_size h
    · have := peek_size h
      rw [nextAll_of_peek h]
      simp only [size, List.flatten_nil, List.length_nil] at this ⊢
      omega
  size_recv {it l} hr := by
    rw [recv_eq] at hr ⊢
    rcases it.peek_cases with ⟨e, it', h⟩ | ⟨it', h⟩ | ⟨it', h⟩
    · simp [nextAll, h] at hr
    · have := peek_size h
      simp only [nextAll, h, Except.ok.injEq] at hr ⊢
      subst hr
      simpa using this
    · have := peek_size h
      rw [nextAll_of_peek h] at hr ⊢
      cases hr
      simpa [size] using this

/-- `Next(len, lst)` hands out no more than it takes from the iterator. -/
theorem nextLen_size [ISizedInput σ] {it it' : TStreamIterator σ} {l : TChunkList}
    (h : it.nextLen len = (.ok l, it')) : l.flatten.length + it'.size ≤ it.size := by
  rcases it.peek_cases with ⟨e, it₁, hp⟩ | ⟨it₁, hp⟩ | ⟨it₁, hp⟩
  · simp [nextLen, hp] at h
  · have := peek_size hp
    simp only [nextLen, hp, Prod.mk.injEq, Except.ok.injEq] at h
    obtain ⟨rfl, rfl⟩ := h
    simpa using this
  · have := peek_size hp
    rw [nextLen_of_peek hp] at h
    cases h
    simp only [size, split_fst_flatten, split_snd_flatten, List.length_take,
      List.length_drop] at this ⊢
    omega

theorem nextLen_size_le [ISizedInput σ] (it : TStreamIterator σ) (len : Nat) :
    (it.nextLen len).2.size ≤ it.size := by
  rcases it.peek_cases with ⟨e, it₁, hp⟩ | ⟨it₁, hp⟩ | ⟨it₁, hp⟩
  · simpa [nextLen, hp] using peek_size hp
  · simpa [nextLen, hp] using peek_size hp
  · have := nextLen_size (nextLen_of_peek hp len)
    rw [nextLen_of_peek hp]
    simp only
    omega

theorem nextLen_turns_le [IIoInput σ] (it : TStreamIterator σ) (len : Nat) :
    (it.nextLen len).2.turns ≤ it.turns := by
  rcases it.peek_cases with ⟨e, it₁, hp⟩ | ⟨it₁, hp⟩ | ⟨it₁, hp⟩
  · simpa [nextLen, hp] using peek_turns hp
  · simpa [nextLen, hp] using peek_turns hp
  · have ht := peek_turns hp
    have hne := peek_true hp
    rw [nextLen_of_peek hp]
    simp only [turns, hne, if_neg, not_false_eq_true] at ht ⊢
    split <;> omega

/-- `Next(len, lst)` finds nothing, or empties the buffer, or hands out all of `len`. -/
theorem nextLen_turns_lt [IIoInput σ] {it it' : TStreamIterator σ} {len : Nat} {l : TChunkList}
    (h : it.nextLen len = (.ok l, it')) (hl : l ≠ []) :
    it'.turns < it.turns ∨ l.flatten.length = len := by
  rcases it.peek_cases with ⟨e, it₁, hp⟩ | ⟨it₁, hp⟩ | ⟨it₁, hp⟩
  · simp [nextLen, hp] at h
  · simp only [nextLen, hp, Prod.mk.injEq, Except.ok.injEq] at h
    exact absurd h.1.symm hl
  · have ht := peek_turns hp
    have hne := peek_true hp
    rw [nextLen_of_peek hp] at h
    cases h
    by_cases hs : (it₁.l.split len).2 = []
    · refine .inl ?_
      simp only [turns, hne, hs, if_neg, not_false_eq_true, if_pos] at ht ⊢
      omega
    · exact .inr (split_fst_length hs)

/-- What every `Recv` of the underlying input keeps is kept. -/
theorem nextLen_source [IIoInput σ] {P : σ → Prop} (hP : ∀ s, P s → P (recv s).2)
    (it : TStreamIterator σ) (h : P it.s) (len : Nat) : P (it.nextLen len).2.s := by
  have hpeek : P it.peek.2.s := by
    by_cases hl : it.l = []
    · have := hP it.s h
      cases hr : (recv it.s).1 with
      | ok l => rwa [peek_ok hl hr]
      | error e => rwa [peek_error hl hr]
    · rwa [peek_buffered hl]
  rcases it.peek_cases with ⟨e, it₁, hp⟩ | ⟨it₁, hp⟩ | ⟨it₁, hp⟩
  all_goals
    rw [hp] at hpeek
    simpa [nextLen, hp] using hpeek

/-- `Next()` leaves the iterator as `Next(1, tmp)` does. -/
theorem next_snd [IIoInput σ] (it : TStreamIterator σ) : it.next.2 = (it.nextLen 1).2 := by
  unfold next readSome
  rcases it.nextLen 1 with ⟨e | l, it'⟩
  · rfl
  · simp only
    split
    · next h => cases h
    · next h => exact (congrArg Prod.snd h).symm
    · next h => exact (congrArg Prod.snd h).symm

/-- Reading a byte uses up the iterator, which is what loops that read byte by byte recurse on. -/
theorem next_size [ISizedInput σ] {it it' : TStreamIterator σ} (h : it.next = (.ok b, it')) :
    it'.size < it.size := by
  unfold next readSome at h
  rcases hn : it.nextLen 1 with ⟨e | l, it₁⟩
  · simp [hn] at h
  · have hsize := nextLen_size hn
    simp only [hn] at h
    split at h
    · cases h
    · cases h
    · next ch tl _ hc =>
      rw [Prod.mk.injEq] at hc h
      obtain ⟨hc, rfl⟩ := hc
      rw [Except.ok.injEq, copyData_eq] at hc
      have hlen := congrArg List.length hc
      rw [List.length_take, List.length_cons] at hlen
      rw [← h.2]
      omega

/-! ### Reading a given number of bytes -/

section Reads
variable [IIoInput σ] {it it' : TStreamIterator σ} {len : Nat}

theorem readList_error (h : len ≠ 0) (hn : it.nextLen len = (.error e, it')) :
    it.readList len = (.error e, it') := by
  rw [readList, if_neg h, hn]

theorem readList_ok (h : len ≠ 0) {tmp : TChunkList} (hn : it.nextLen len = (.ok tmp, it')) :
    it.readList len = if tmp.fullLength = 0 then (.error (.streamError "no data"), it') else
      ((it'.readList (len - tmp.fullLength)).1.map (tmp ++ ·),
        (it'.readList (len - tmp.fullLength)).2) := by
  rw [readList, if_neg h, hn]
  simp only
  split
  · rfl
  · rcases it'.readList (len - tmp.fullLength) with ⟨e | lst, it''⟩ <;> rfl

theorem nextLen_length (hn : it.nextLen len = (.ok tmp, it')) : tmp.flatten.length ≤ len := by
  rcases it.peek_cases with ⟨e, it₁, h⟩ | ⟨it₁, h⟩ | ⟨it₁, h⟩
  · simp [nextLen, h] at hn
  · simp only [nextLen, h, Prod.mk.injEq, Except.ok.injEq] at hn
    rw [← hn.1]
    exact Nat.zero_le _
  · rw [nextLen_of_peek h] at hn
    cases hn
    rw [split_fst_flatten, List.length_take]
    exact Nat.min_le_left ..

/-- `Read(buf, len)` reads as `Read(lst, len)` does. -/
theorem read_eq_readList (it : TStreamIterator σ) (len : Nat) :
    it.read len = ((it.readList len).1.map List.flatten, (it.readList len).2) := by
  induction len using Nat.strongRecOn generalizing it with
  | ind len ih =>
    rw [read]
    split
    · next h =>
      rw [readList, if_pos h]
      rfl
    · next h =>
      rcases hn : it.nextLen len with ⟨e | tmp, it₁⟩
      · rw [readList_error h hn]
        simp only [readSome, hn]
        rfl
      · have hcopy : copyData tmp len = tmp.flatten := by
          rw [copyData_eq, List.take_of_length_le (nextLen_length hn)]
        rw [readList_ok h hn, fullLength_eq]
        simp only [readSome, hn, hcopy]
        cases hf : tmp.flatten with
        | nil => rfl
        | cons b bs =>
          simp only [List.length_cons, Nat.add_one_ne_zero, if_false]
          rw [ih _ (by omega)]
          rcases it₁.readList (len - (bs.length + 1)) with ⟨e | lst, it₂⟩
          · rfl
          · simp [Except.map, hf]

end Reads

/-! ### The bytes that are still to come -/

/-- The bytes `xs` are still to be read, and then the input ends with `f`. -/
structure Holds [IIoInput σ] (it : TStreamIterator σ) (xs : List UInt8) (f : Option TException) :
    Prop where
  buffered : ∀ c ∈ it.l, c ≠ []
  rest : ∃ ys, xs = it.l.flatten ++ ys ∧ Yields Proper it.s ys f

namespace Holds

variable [IIoInput σ] {it : TStreamIterator σ} {xs : List UInt8} {f : Option TException}

theorem of_yields {s : σ} (h : Yields Proper s xs f) : Holds ⟨s, []⟩ xs f :=
  ⟨by simp, xs, by simp, h⟩

theorem peek_ne_nil (H : Holds it xs f) (hx : xs ≠ []) :
    ∃ it', it.peek = (.ok true, it') ∧ Proper it'.l ∧ Holds it' xs f := by
  obtain ⟨hb, ys, rfl, hd⟩ := H
  by_cases hl : it.l = []
  · have hys : ys ≠ [] := by simpa [hl] using hx
    obtain ⟨l, s', zs, hr, -, hp, rfl, hd'⟩ := hd.recv_cons hys
    have hr1 : (recv it.s).1 = .ok l := by rw [hr]
    refine ⟨⟨s', l⟩, ?_, hp, hp.2, zs, ?_, hd'⟩
    · rw [peek_ok hl hr1, hr]
      have hne := hp.1
      simp [hne]
    · simp [hl]
  · exact ⟨it, peek_buffered hl, ⟨hl, hb⟩, hb, ys, rfl, hd⟩

theorem peek_nil (H : Holds it [] f) :
    ∃ it', it.peek = ((ended f).map fun l => !(l : TChunkList).isEmpty, it') ∧ Holds it' [] f := by
  obtain ⟨hb, ys, hx, hd⟩ := H
  obtain ⟨hfl, rfl⟩ := List.append_eq_nil_iff.mp hx.symm
  have hl : it.l = [] := by
    by_contra hne
    exact Proper.hasData ⟨hne, hb⟩ hfl
  obtain ⟨s', hr, hd'⟩ := hd.recv_nil
  cases f with
  | none =>
    have hr1 : (recv it.s).1 = .ok [] := by rw [hr]; rfl
    refine ⟨_, peek_ok hl hr1, ?_⟩
    rw [hr]
    exact of_yields hd'
  | some e =>
    have hr1 : (recv it.s).1 = .error e := by rw [hr]; rfl
    refine ⟨_, peek_error hl hr1, ?_⟩
    rw [hr]
    exact of_yields hd'

/-- `Next(len, lst)` takes between one and `len` bytes from the front. -/
theorem nextLen (H : Holds it xs f) (hx : xs ≠ []) {len : Nat} (hlen : 0 < len) :
    ∃ l it' ys, it.nextLen len = (.ok l, it') ∧ l ≠ [] ∧ l.flatten ≠ [] ∧
      l.flatten.length ≤ len ∧ xs = l.flatten ++ ys ∧ Holds it' ys f := by
  obtain ⟨it', hp, hl, hb, ys, rfl, hd⟩ := H.peek_ne_nil hx
  refine ⟨_, _, it'.l.flatten.drop len ++ ys, nextLen_of_peek hp len, ?_, ?_, ?_, ?_, ?_⟩
  · exact fun h => hl.1 (split_fst_eq_nil_iff.mp h)
  · rw [split_fst_flatten]
    have hne := hl.hasData
    have hne' := List.length_pos_iff.mpr hne
    intro h0
    have := congrArg List.length h0
    rw [List.length_take, List.length_nil] at this
    omega
  · rw [split_fst_flatten, List.length_take]
    omega
  · simp [← List.append_assoc]
  · exact ⟨split_snd_ne_nil hb, ys, by simp, hd⟩

theorem nextLen_nil (H : Holds it [] f) (len : Nat) :
    ∃ it', it.nextLen len = (ended f, it') ∧ Holds it' [] f := by
  obtain ⟨it', hp, H'⟩ := H.peek_nil
  cases f with
  | none => exact ⟨it', by simp [TStreamIterator.nextLen, hp, ended, Except.map], H'⟩
  | some e => exact ⟨it', by simp [TStreamIterator.nextLen, hp, ended, Except.map], H'⟩

/-- An iterator is read as an input, too: `Next(lst)` takes all that is buffered. -/
theorem steady (f : Option TException) :
    Steady Proper f fun (it : TStreamIterator σ) xs => Holds it xs f := by
  intro it xs H
  by_cases hx : xs = []
  · subst hx
    obtain ⟨it', hp, H'⟩ := H.peek_nil
    refine .inl ⟨rfl, it', ?_, H'⟩
    cases f with
    | none => simp [recv_eq, nextAll, hp, ended, Except.map]
    | some e => simp [recv_eq, nextAll, hp, ended, Except.map]
  · obtain ⟨it', hp, hl, -, ys, rfl, hd⟩ := H.peek_ne_nil hx
    exact .inr ⟨it'.l, _, ys, nextAll_of_peek hp, hl.hasData, hl, rfl, of_yields hd⟩

theorem next (H : Holds it (b :: xs) f) : ∃ it', it.next = (.ok b, it') ∧ Holds it' xs f := by
  obtain ⟨l, it', ys, hn, -, hne, hlen, hx, H'⟩ := H.nextLen (List.cons_ne_nil _ _) Nat.one_pos
  have hl1 : l.flatten.length = 1 := by
    have := List.length_pos_iff.mpr hne
    omega
  obtain ⟨a, ha⟩ := List.length_eq_one_iff.mp hl1
  rw [ha, List.singleton_append, List.cons.injEq] at hx
  obtain ⟨rfl, rfl⟩ := hx
  refine ⟨it', ?_, H'⟩
  simp [TStreamIterator.next, readSome, hn, copyData_eq, ha]

/-- At the end of the stream there is no byte. -/
theorem next_nil (H : Holds it [] f) : ∃ e it', it.next = (.error e, it') := by
  obtain ⟨it', hn, -⟩ := H.nextLen_nil 1
  cases f with
  | none =>
    exact ⟨.streamError "no data", it', by
      simp [TStreamIterator.next, readSome, hn, ended, copyData]⟩
  | some e => exact ⟨e, it', by simp [TStreamIterator.next, readSome, hn, ended]⟩

theorem unGet (H : Holds it xs f) {data : TChunkList} (hd : ∀ c ∈ data, c ≠ []) :
    Holds (it.unGet data) (data.flatten ++ xs) f := by
  obtain ⟨hb, ys, rfl, h⟩ := H
  refine ⟨?_, ys, by simp [TStreamIterator.unGet], h⟩
  intro c hc
  rcases List.mem_append.mp hc with hc | hc
  · exact hd c hc
  · exact hb c hc

/-- `Read(lst, len)` takes `len` bytes from the front, or throws when there are not so many. -/
theorem readList (H : Holds it xs f) (len : Nat) :
    if len ≤ xs.length then
      ∃ l it', it.readList len = (.ok l, it') ∧ l.flatten = xs.take len ∧ Holds it' (xs.drop len) f
    else ∃ e it', it.readList len = (.error e, it') := by
  induction len using Nat.strongRecOn generalizing it xs with
  | ind len ih =>
    by_cases h0 : len = 0
    · subst h0
      exact ⟨[], it, by rw [TStreamIterator.readList, if_pos rfl], rfl, H⟩
    by_cases hx : xs = []
    · subst hx
      rw [if_neg (by simpa using h0)]
      obtain ⟨it', hn, -⟩ := H.nextLen_nil len
      cases f with
      | none => exact ⟨_, _, (readList_ok h0 hn).trans (if_pos rfl)⟩
      | some e => exact ⟨_, _, readList_error h0 hn⟩
    · obtain ⟨tmp, it₁, ys, hn, -, hd, hle, rfl, H₁⟩ := H.nextLen hx (Nat.pos_of_ne_zero h0)
      have hpos := List.length_pos_iff.2 hd
      have hr := readList_ok h0 hn
      rw [fullLength_eq, if_neg (by omega)] at hr
      have hrest := ih (len - tmp.flatten.length) (by omega) H₁
      rw [List.length_append]
      split at hrest
      · next hlt =>
        obtain ⟨l, it₂, hl, hb, H₂⟩ := hrest
        rw [if_pos (by omega)]
        refine ⟨tmp ++ l, it₂, by rw [hr, hl]; rfl, ?_, ?_⟩
        · rw [List.flatten_append, hb, List.take_append, List.take_of_length_le hle]
        · rwa [List.drop_append, List.drop_of_length_le hle]
      · next hlt =>
        obtain ⟨e, it₂, hl⟩ := hrest
        rw [if_neg (by omega)]
        exact ⟨e, it₂, by rw [hr, hl]; rfl⟩

theorem read (H : Holds it xs f) (len : Nat) :
    if len ≤ xs.length then ∃ it', it.read len = (.ok (xs.take len), it') ∧
      Holds it' (xs.drop len) f
    else ∃ e it', it.read len = (.error e, it') := by
  have hr := H.readList len
  rw [read_eq_readList]
  split at hr
  · next h =>
    obtain ⟨l, it', hl, hb, H'⟩ := hr
    rw [if_pos h, hl]
    exact ⟨it', by rw [← hb]; rfl, H'⟩
  · next h =>
    obtain ⟨e, it', hl⟩ := hr
    rw [if_neg h, hl]
    exact ⟨e, it', rfl⟩

/-- What is still to be read is determined. -/
theorem unique {ys : List UInt8} {g : Option TException} (H : Holds it xs f) (H' : Holds it ys g) :
    xs = ys :=
  (((steady f).delivers H).unique ((steady g).delivers H')).1

end Holds

end TStreamIterator

end Balancer
