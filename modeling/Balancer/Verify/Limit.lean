import Balancer.Verify.Requests

/-!
# The limit on the head of a request

With a limit `TParsedRequest` reads through a `TLengthLimitedInput`. That one takes a whole list
from the iterator, cuts it at the limit and forgets the rest, and only what the parser has left of
the cut list is put back. So the bytes after the head survive exactly when the lists that were
received up to its end stay within the limit together, however short the head is
(`parsedRequest_rest_iff`).
-/

namespace Balancer

open BlockIO TRequestParseContextHard TLengthLimitedInput THttpModule TChunkList

/-! ### The lists of an iterator -/

namespace TStreamIterator

variable {it : TStreamIterator TScript} {l : TChunkList} {ls : List TChunkList}

/-- The lists that the calls of `Recv` return. -/
def lists (it : TStreamIterator TScript) : List TChunkList :=
  if it.l = [] then it.s.blocks else it.l :: it.s.blocks

theorem recv_lists_nil (h : it.lists = []) : Source.recv it = (ended it.s.ending, it) := by
  obtain ⟨⟨blocks, f⟩, buf⟩ := it
  unfold lists at h
  split at h
  · next hbuf =>
    cases hbuf
    cases h
    cases f <;> rfl
  · cases h

theorem recv_lists_cons (h : it.lists = l :: ls) (hl : l ≠ []) :
    Source.recv it = (.ok l, ⟨⟨ls, it.s.ending⟩, []⟩) := by
  obtain ⟨⟨blocks, f⟩, buf⟩ := it
  unfold lists at h
  split at h
  · next hbuf =>
    cases hbuf
    cases h
    have hp : peek ⟨⟨l :: ls, f⟩, []⟩ = (.ok true, (⟨⟨ls, f⟩, l⟩ : TStreamIterator TScript)) := by
      rw [peek_ok (l := l) rfl rfl]
      simp [hl]
      rfl
    exact nextAll_of_peek hp
  · next hbuf =>
    cases h
    exact nextAll_of_peek (peek_buffered hbuf)

end TStreamIterator

/-- The number of bytes in the lists up to the one in which the first `n` bytes end. -/
def received : Nat → List TChunkList → Nat
  | _, [] => 0
  | n, l :: ls =>
    if n ≤ l.flatten.length then l.flatten.length
    else l.flatten.length + received (n - l.flatten.length) ls

theorem received_add {n : Nat} (hn : 0 < n) (l : TChunkList) (ls : List TChunkList) :
    received (l.flatten.length + n) (l :: ls) = l.flatten.length + received n ls := by
  rw [received, if_neg (by omega), Nat.add_sub_cancel_left]

/-! ### Parsing up to the limit -/

/-- What is left of the lists `ls` in the iterator `it` when a head has been parsed from them up to
the limit `n`. The machine `s` has read the bytes of the head from the front. -/
def LeftOver (s : FlatState) (ls : List TChunkList) (f : Option TException) (n : Nat)
    (req : FlatRequest) (it : TStreamIterator TScript) : Prop :=
  ∃ block tail, bytesOf ls = block ++ tail ∧ block ≠ [] ∧ s.run block = .done req [] ∧
    (received block.length ls ≤ n → it.Holds tail f) ∧
    (n < received block.length ls → it.size < tail.length)

/-- A list that is within the limit and does not end the head. -/
theorem LeftOver.cons {s s₁ : FlatState} {l : TChunkList} {ls : List TChunkList}
    {f : Option TException} {n : Nat} {req : FlatRequest} {it : TStreamIterator TScript}
    (hs : s.run l.flatten = .more s₁) (hl : l.flatten.length ≤ n)
    (H : LeftOver s₁ ls f (n - l.flatten.length) req it) : LeftOver s (l :: ls) f n req it := by
  obtain ⟨block, tail, hbytes, hne, hrun, hkeep, hlose⟩ := H
  have hrec := received_add (List.length_pos_iff.2 hne) l ls
  refine ⟨l.flatten ++ block, tail, ?_, ?_, ?_, ?_, ?_⟩
  · rw [bytesOf_cons, hbytes, List.append_assoc]
  · exact List.append_ne_nil_of_right_ne_nil _ hne
  · rw [FlatState.run_append, hs]
    exact hrun
  · rw [List.length_append, hrec]
    intro h
    exact hkeep (by omega)
  · rw [List.length_append, hrec]
    intro h
    exact hlose (by omega)

/-- The list in which the head ends: what it has beyond the limit is gone. -/
theorem LeftOver.last {s : FlatState} {l u : TChunkList} {ls : List TChunkList}
    {f : Option TException} {n : Nat} {req : FlatRequest} {tail : List UInt8}
    (hls : ∀ l' ∈ ls, Proper l') (hs : s.run (TChunkList.cut n l).flatten = .done req tail)
    (htail : u.flatten = tail) (hu : l.flatten.length ≤ n → ∀ c ∈ u, c ≠ []) :
    LeftOver s (l :: ls) f n req ((⟨⟨ls, f⟩, []⟩ : TStreamIterator TScript).unGet u) := by
  obtain ⟨block, hblock, hne, hrun⟩ := FlatState.run_done hs
  rw [cut_flatten] at hblock
  have hl : l.flatten = block ++ (tail ++ l.flatten.drop n) := by
    rw [← List.append_assoc, ← hblock, List.take_append_drop]
  have hlen := congrArg List.length hl
  simp only [List.length_append, List.length_drop] at hlen
  have hrec : received block.length (l :: ls) = l.flatten.length := by
    rw [received, if_pos (by omega)]
  refine ⟨block, tail ++ l.flatten.drop n ++ bytesOf ls, ?_, hne, hrun, ?_, ?_⟩
  · rw [bytesOf_cons, ← List.append_assoc, ← hl]
  · rw [hrec]
    intro hle
    rw [List.drop_of_length_le hle, List.append_nil, ← htail]
    exact (TStreamIterator.Holds.of_yields (Script.yields hls f)).unGet (hu hle)
  · rw [hrec]
    intro hlt
    have hsize : ((⟨⟨ls, f⟩, []⟩ : TStreamIterator TScript).unGet u).size =
        u.flatten.length + (bytesOf ls).length := by
      simp only [TStreamIterator.size, TStreamIterator.unGet, List.append_nil]
      rfl
    rw [hsize, htail]
    simp only [List.length_append, List.length_drop]
    omega

variable {it : TStreamIterator TScript} {n : Nat} {e : TException}

/-- The limiter on the next list of the iterator. -/
theorem TLengthLimitedInput.recv_lists_cons {l : TChunkList} {ls : List TChunkList} (hn : n ≠ 0)
    (h : it.lists = l :: ls) (hl : l ≠ []) :
    Source.recv (TLengthLimitedInput.mk it n (some e)) = (.ok (TChunkList.cut n l),
      ⟨⟨⟨ls, it.s.ending⟩, []⟩, n - (TChunkList.cut n l).flatten.length, some e⟩) := by
  have hr := TStreamIterator.recv_lists_cons h hl
  rw [recv_eq, doRecv_ok (c := ⟨it, n, some e⟩) hn (congrArg Prod.fst hr), hr, fullLength_eq]

/-- Nothing is parsed when the limit is used up, or when no list is left. -/
theorem TRequestParseContextHard.parse_limited_ne_ok {ctx ctx' : TRequestParseContextHard}
    {lim : TLengthLimitedInput (TStreamIterator TScript)} (h : n = 0 ∨ it.lists = []) :
    ctx.parse (TLengthLimitedInput.mk it n (some e)) ≠ (.ok ctx', lim) := by
  intro hok
  by_cases hn : n = 0
  · subst hn
    rw [parse_error (e := e) (doRecv_zero rfl)] at hok
    cases hok
  · have hr := TStreamIterator.recv_lists_nil (h.resolve_left hn)
    cases hf : it.s.ending with
    | none =>
      rw [hf] at hr
      have hrecv := doRecv_ok (c := ⟨it, n, some e⟩) hn (congrArg Prod.fst hr)
      rw [parse_incomplete hrecv rfl] at hok
      cases hok
    | some e' =>
      rw [hf] at hr
      have hrecv := doRecv_error (c := ⟨it, n, some e⟩) hn (congrArg Prod.fst hr)
      rw [parse_error hrecv] at hok
      cases hok

/-- `Parse` through the limit, by induction on the lists that are still to come. -/
theorem Ready.parse_limited {s : FlatState} {ctx ctx' : TRequestParseContextHard}
    {lim : TLengthLimitedInput (TStreamIterator TScript)} (H : Ready s ctx) (hu : ctx.unparsed = [])
    (hls : ∀ l ∈ it.lists, Proper l)
    (hok : ctx.parse (TLengthLimitedInput.mk it n (some e)) = (.ok ctx', lim)) :
    LeftOver s it.lists it.s.ending n ctx'.request.flat (lim.s.unGet ctx'.unparsed) := by
  generalize hlists : it.lists = ls at hls ⊢
  induction ls generalizing s ctx it n with
  | nil => exact absurd hok (parse_limited_ne_ok (.inr hlists))
  | cons l ls ih =>
    have hn : n ≠ 0 := fun hn => parse_limited_ne_ok (.inl hn) hok
    obtain ⟨hl, hls⟩ := List.forall_mem_cons.1 hls
    have hdata : (TChunkList.cut n l).flatten ≠ [] := by
      have hpos := List.length_pos_iff.2 hl.hasData
      rw [cut_flatten, ← List.length_pos_iff, List.length_take]
      omega
    have hrecv := recv_lists_cons (e := e) hn hlists hl.1
    rw [parse_cons hrecv hdata] at hok
    have hx := H.parseChunk (TChunkList.cut n l)
    revert hx
    cases hrun : s.run (TChunkList.cut n l).flatten with
    | error =>
      intro hx
      rw [show ctx.parseChunk _ = _ from hx] at hok
      cases hok
    | more s₁ =>
      rintro ⟨ctx₁, hx, hu₁, H₁⟩
      rw [hx] at hok
      -- a list that reaches the limit leaves nothing for the next call
      have hle : l.flatten.length ≤ n := by
        by_contra hlt
        refine parse_limited_ne_ok (.inl ?_) hok
        rw [cut_flatten, List.length_take]
        omega
      rw [cut_of_le hle] at hrun hok
      exact (ih H₁ (hu₁.trans hu) hok rfl hls).cons hrun hle
    | done req tail =>
      rintro ⟨ctx₁, u, hx, rfl, hu₁, htail, part, rest, rfl, hpart, hrest⟩
      rw [hx] at hok
      cases hok
      rw [hu₁, hu, List.nil_append]
      refine LeftOver.last hls hrun htail fun hle => ?_
      rw [cut_of_le hle] at hrest
      exact List.forall_mem_append.2 ⟨hpart, fun c hc => hl.2 c (hrest.subset hc)⟩

/-- Any limit and any way in which the bytes of the client are received: when a head was parsed, the
bytes that can be read from the iterator are those after the head exactly when the lists up to the
one in which the head ends hold no more bytes than the limit. -/
theorem parsedRequest_rest_iff (maxLen : Nat) (hmax : maxLen ≠ 0) (it it' : TStreamIterator TScript)
    (r : TRequest) (hls : ∀ l ∈ it.lists, Proper l) (hp : parsedRequest maxLen it = (.ok r, it')) :
    ∃ block tail, bytesOf it.lists = block ++ tail ∧ ({} : FlatState).run block = .done r.flat [] ∧
      (Delivers it' tail it.s.ending ↔ received block.length it.lists ≤ maxLen) := by
  unfold parsedRequest at hp
  rw [if_pos hmax] at hp
  split at hp
  · cases hp
  · next ctx lim hparse =>
    cases hp
    obtain ⟨block, tail, hbytes, -, hrun, hkeep, hlose⟩ := Ready.init.parse_limited rfl hls hparse
    refine ⟨block, tail, hbytes, hrun, fun hd => ?_, fun hle => ?_⟩
    · by_contra hlt
      have hlen := hd.length_le
      have hsize := hlose (Nat.lt_of_not_le hlt)
      exact absurd hsize (Nat.not_lt_of_le hlen)
    · exact (TStreamIterator.Holds.steady _).delivers (hkeep hle)

/-- A head that ends in the first list. -/
theorem parsedRequest_first {l : TChunkList} {ls : List TChunkList} {ctx : TRequestParseContextHard}
    (hn : n ≠ 0) (hlists : it.lists = l :: ls) (hl : l ≠ [])
    (hdata : (TChunkList.cut n l).flatten ≠ [])
    (hx : ({} : TRequestParseContextHard).parseChunk (TChunkList.cut n l) = .ok (true, ctx)) :
    parsedRequest n it = (.ok ctx.request, ⟨⟨ls, it.s.ending⟩, ctx.unparsed ++ []⟩) := by
  unfold parsedRequest
  rw [if_pos hn, parse_cons (recv_lists_cons hn hlists hl) hdata, hx]
  rfl

/-- A head of five bytes and two bytes after it, in one chunk. -/
def sevenBytes : TStreamIterator TScript := ⟨⟨[[[65, 13, 10, 13, 10, 66, 67]]], none⟩, []⟩

/-- The limit is large enough for all of them. -/
theorem parsedRequest_rest_seven :
    ∃ r it', parsedRequest 7 sevenBytes = (.ok r, it') ∧
      ∃ block tail, bytesOf sevenBytes.lists = block ++ tail ∧
      ({} : FlatState).run block = .done r.flat [] ∧
        Delivers it' tail none := by
  have hp : parsedRequest 7 sevenBytes = _ :=
    parsedRequest_first (by decide) rfl (by decide) (by decide) rfl
  obtain ⟨block, tail, hbytes, hrun, hiff⟩ :=
    parsedRequest_rest_iff 7 (by decide) sevenBytes _ _ (by decide) hp
  refine ⟨_, _, hp, block, tail, hbytes, hrun, hiff.2 ?_⟩
  have hlen : block.length ≤ 7 := by
    have := congrArg List.length hbytes
    rw [List.length_append] at this
    change 7 = _ at this
    omega
  show (if block.length ≤ 7 then 7 else _) ≤ 7
  rw [if_pos hlen]

/-- With the limit one below, the last byte is lost. -/
theorem parsedRequest_rest_lost :
    ∃ r it', parsedRequest 6 sevenBytes = (.ok r, it') ∧
      bytesOf sevenBytes.lists = [65, 13, 10, 13, 10] ++ [66, 67] ∧
      ({} : FlatState).run [65, 13, 10, 13, 10] = .done r.flat [] ∧ Delivers it' [66] none ∧
      ¬Delivers it' [66, 67] none := by
  have hd : Delivers (⟨⟨[], none⟩, [[66]]⟩ : TStreamIterator TScript) [66] none :=
    .more (l := [[66]]) rfl (by decide) (.stop rfl)
  refine ⟨_, _, parsedRequest_first (by decide) rfl (by decide) (by decide) rfl, rfl, by decide, hd,
    fun h => ?_⟩
  exact absurd (hd.unique h).1 (by decide)

end Balancer
