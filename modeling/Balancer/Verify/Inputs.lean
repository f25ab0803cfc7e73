import Mathlib
import Balancer.Modules.Http.Module
import Balancer.Modules.Proxy.Module

/-!
# What the stacked inputs hand out

Each input that wraps another one is described by what it yields, given what the wrapped input
yields: `TFixedLengthInput` (cut off at the length, or ending as the connection ends),
`TRewindAbleInput` (the same bytes again after every `Rewind`) and `TConcatInput` (one after the
other). A body that breaks off is handed on with the ending of the connection, so it is told apart
from a complete one only when that ending is an exception (`truncated_body_raises_iff`).
-/

namespace Balancer

open BlockIO TChunkList Source

/-! ### `TFixedLengthInput` -/

namespace TFixedLengthInput

variable {σ : Type} [IIoInput σ]

/-- The body breaks off: the connection ends first. -/
theorem steady_truncated (f : Option TException) :
    Steady HasData f fun (c : TFixedLengthInput σ) xs => c.it.Holds xs f ∧ xs.length < c.len := by
  rintro ⟨it, len⟩ xs ⟨H, hlt⟩
  have hlen : len ≠ 0 := by simp only at hlt; omega
  by_cases hx : xs = []
  · subst hx
    obtain ⟨it', hn, H'⟩ := H.nextLen_nil len
    cases f with
    | none => exact .inl ⟨rfl, ⟨it', len⟩, doRecv_ok hlen hn, H', hlt⟩
    | some e => exact .inl ⟨rfl, ⟨it', len⟩, doRecv_error hlen hn, H', hlt⟩
  · obtain ⟨l, it', ys, hn, -, hd, -, rfl, H'⟩ := H.nextLen hx (Nat.pos_of_ne_zero hlen)
    refine .inr ⟨l, _, ys, doRecv_ok hlen hn, hd, hd, rfl, H', ?_⟩
    simp only [List.length_append, fullLength_eq] at hlt ⊢
    omega

theorem yields_truncated {it : TStreamIterator σ} {body : List UInt8} {f : Option TException}
    (H : it.Holds body f) {n : Nat} (hn : body.length < n) :
    Yields HasData (TFixedLengthInput.mk it n) body f :=
  ⟨_, steady_truncated f, H, hn⟩

end TFixedLengthInput

/-! ### `TLengthLimitedInput` -/

namespace TLengthLimitedInput

variable {σ : Type} [IIoInput σ] {Q : TChunkList → Prop} {P : σ → List UInt8 → Prop}
  {f : Option TException}

/-- While less is to come than the limit, the lists of the slave are passed on as they are. -/
theorem steady_below (hP : Steady Q f P) :
    Steady Q f fun (c : TLengthLimitedInput σ) xs => P c.s xs ∧ xs.length < c.l := by
  rintro ⟨s, len, onErr⟩ xs ⟨h, hlt⟩
  have hlen : len ≠ 0 := by simp only at hlt; omega
  rcases hP s xs h with ⟨rfl, s', hr, h'⟩ | ⟨l, s', ys, hr, hl, hq, rfl, h'⟩
  · refine .inl ⟨rfl, ⟨s', len, onErr⟩, ?_, h', hlt⟩
    rw [recv_eq]
    cases f with
    | none => rw [doRecv_ok (c := ⟨s, len, onErr⟩) hlen (congrArg Prod.fst hr), hr]; rfl
    | some e => rw [doRecv_error (c := ⟨s, len, onErr⟩) hlen (congrArg Prod.fst hr), hr]; rfl
  · simp only [List.length_append] at hlt
    have hcut : TChunkList.cut len l = l := cut_of_le (by omega)
    refine .inr ⟨l, ⟨s', len - l.flatten.length, onErr⟩, ys, ?_, hl, hq, rfl, h', ?_⟩
    · rw [recv_eq, doRecv_ok (c := ⟨s, len, onErr⟩) hlen (congrArg Prod.fst hr), hr, hcut,
        fullLength_eq]
    · simp only
      omega

/-- When the limit is reached, what the slave has beyond it is dropped. -/
theorem steady_limit (hP : Steady Q f P) :
    Steady HasData none fun (c : TLengthLimitedInput σ) xs =>
      c.onErr = none ∧ xs.length = c.l ∧ (xs ≠ [] → ∃ rest, P c.s (xs ++ rest)) := by
  rintro ⟨s, len, onErr⟩ xs ⟨rfl, hlen, hs⟩
  simp only at hlen hs
  subst hlen
  by_cases hx : xs = []
  · subst hx
    exact .inl ⟨rfl, ⟨s, 0, none⟩, rfl, rfl, rfl, fun h => absurd rfl h⟩
  · obtain ⟨rest, h⟩ := hs hx
    have hlen : xs.length ≠ 0 := fun h0 => hx (List.eq_nil_of_length_eq_zero h0)
    rcases hP s _ h with ⟨h0, -⟩ | ⟨l, s', ys, hr, hl, -, hxs, h'⟩
    · exact absurd (List.append_eq_nil_iff.1 h0).1 hx
    · have hrecv : recv (TLengthLimitedInput.mk s xs.length none) =
          (.ok (TChunkList.cut xs.length l),
            ⟨s', xs.length - (TChunkList.cut xs.length l).flatten.length, none⟩) := by
        rw [recv_eq, doRecv_ok (c := ⟨s, xs.length, none⟩) hlen (congrArg Prod.fst hr), hr,
          fullLength_eq]
      rcases List.append_eq_append_iff.1 hxs with ⟨as, hl', -⟩ | ⟨as, rfl, rfl⟩
      · -- the list reaches the limit
        have hcut : (TChunkList.cut xs.length l).flatten = xs := by
          rw [cut_flatten, hl', List.take_left]
        rw [hcut, Nat.sub_self] at hrecv
        have hdata : HasData (TChunkList.cut xs.length l) := by rwa [HasData, hcut]
        exact .inr ⟨_, _, [], hrecv, hdata, hdata, by rw [hcut, List.append_nil], rfl, rfl,
          fun h => absurd rfl h⟩
      · have hcut : TChunkList.cut (l.flatten ++ as).length l = l :=
          cut_of_le (by rw [List.length_append]; omega)
        rw [hcut] at hrecv
        exact .inr ⟨l, _, as, hrecv, hl, hl, rfl, rfl, by simp, fun _ => ⟨rest, h'⟩⟩

/-- With an error at the limit: a list that was cut is the last one, as the input then throws. -/
theorem serves (hP : Serves P) :
    Serves fun (c : TLengthLimitedInput σ) xs => c.onErr.isSome ∧ (c.l = 0 ∨ P c.s xs) := by
  rintro ⟨s, l, onErr⟩ xs lst c' ⟨herr, hs⟩ hr hd
  obtain ⟨e, rfl⟩ := Option.isSome_iff_exists.1 herr
  by_cases hl : l = 0
  · subst hl
    cases hr
  · rcases hr' : recv s with ⟨e' | lst', s'⟩
    · rw [recv_eq, doRecv_error (c := ⟨s, l, some e⟩) hl (congrArg Prod.fst hr')] at hr
      cases hr
    · rw [recv_eq, doRecv_ok (c := ⟨s, l, some e⟩) hl (congrArg Prod.fst hr'), hr'] at hr
      cases hr
      have hd' : HasData lst' := by
        intro h0
        rw [HasData, cut_flatten, h0, List.take_nil] at hd
        exact hd rfl
      obtain ⟨ys, rfl, h'⟩ := hP s xs lst' s' (hs.resolve_left hl) hr' hd'
      rcases Nat.lt_or_ge l lst'.flatten.length with hlt | hle
      · refine ⟨lst'.flatten.drop l ++ ys, by rw [cut_flatten, ← List.append_assoc,
          List.take_append_drop], rfl, .inl ?_⟩
        simp only [fullLength_eq, cut_flatten, List.length_take]
        omega
      · rw [cut_of_le hle]
        exact ⟨ys, rfl, rfl, .inr h'⟩

end TLengthLimitedInput

/-! ### `TRewindAbleInput` -/

namespace TRewindAbleInput

variable {σ : Type} [IIoInput σ] {r : TRewindAbleInput σ} {xs : List UInt8} {f : Option TException}

/-- All bytes of the input are `xs`: those already handed out since the last `Rewind`, those that
wait to be handed out again, and those of the slave. -/
structure Rewinds (r : TRewindAbleInput σ) (xs : List UInt8) (f : Option TException) : Prop where
  old : r.old = [] ∨ HasData r.old ∧ r.tmp = []
  tmp : r.tmp = [] ∨ HasData r.tmp
  rest : ∃ ys, xs = r.tmp.flatten ++ (r.old.flatten ++ ys) ∧ Yields HasData r.slave ys f

theorem Rewinds.of_yields {s : σ} (h : Yields HasData s xs f) : Rewinds ⟨[], [], s⟩ xs f :=
  ⟨.inl rfl, .inl rfl, xs, rfl, h⟩

theorem Rewinds.rewind (H : r.Rewinds xs f) : r.rewind.Rewinds xs f := by
  obtain ⟨hold, htmp, ys, rfl, hy⟩ := H
  rcases hold with h | ⟨hd, h⟩
  · refine ⟨?_, .inl rfl, ys, by simp [TRewindAbleInput.rewind, h], hy⟩
    rcases htmp with h' | h'
    · exact .inl (by simp [TRewindAbleInput.rewind, h, h'])
    · exact .inr ⟨by simpa [TRewindAbleInput.rewind, h] using h', rfl⟩
  · refine ⟨.inr ⟨by simpa [TRewindAbleInput.rewind, h] using hd, rfl⟩, .inl rfl, ys,
      by simp [TRewindAbleInput.rewind, h], hy⟩

/-- One `Recv`, by where the bytes come from. -/
theorem Rewinds.recv (H : r.Rewinds xs f) :
    (r.old = [] ∧ xs = r.tmp.flatten ∧ ∃ r', recv r = (ended f, r') ∧ r'.Rewinds xs f ∧
      r'.tmp = r.tmp ∧ r'.old = []) ∨
    ∃ l r' ys, recv r = (.ok l, r') ∧ HasData l ∧ xs = r.tmp.flatten ++ (l.flatten ++ ys) ∧
      r'.Rewinds xs f ∧ r'.tmp = r.tmp ++ l := by
  obtain ⟨hold, htmp, ys, rfl, hy⟩ := H
  rcases hold with h | ⟨hd, h⟩
  · by_cases hys : ys = []
    · subst hys
      obtain ⟨s', hr, hy'⟩ := hy.recv_nil
      refine .inl ⟨h, by simp [h], ⟨[], r.tmp, s'⟩, ?_, ⟨.inl rfl, htmp, [], by simp [h], hy'⟩, rfl,
        rfl⟩
      rw [recv_eq]
      cases f with
      | none => rw [doRecv_ok h (congrArg Prod.fst hr), hr, List.append_nil]; rfl
      | some e => rw [doRecv_error h (congrArg Prod.fst hr), hr]; rfl
    · obtain ⟨l, s', zs, hr, hl, -, rfl, hy'⟩ := hy.recv_cons hys
      refine .inr ⟨l, ⟨[], r.tmp ++ l, s'⟩, zs, ?_, hl, by simp [h], ?_, rfl⟩
      · rw [recv_eq, doRecv_ok h (congrArg Prod.fst hr), hr]
      · refine ⟨.inl rfl, .inr ?_, zs, by simp [h], hy'⟩
        simp only [HasData, List.flatten_append, ne_eq, List.append_eq_nil_iff, not_and]
        exact fun _ => hl
  · refine .inr ⟨r.old, ⟨[], r.tmp ++ r.old, r.slave⟩, ys, ?_, hd, rfl, ?_, rfl⟩
    · rw [recv_eq, doRecv_old hd.ne_nil]
    · exact ⟨.inl rfl, .inr (by simpa [h] using hd), ys, by simp, hy⟩

theorem Rewinds.recv_snd (H : r.Rewinds xs f) : (Source.recv r).2.Rewinds xs f := by
  rcases H.recv with ⟨-, -, r', hr, H', -⟩ | ⟨l, r', ys, hr, -, -, H', -⟩
  · rw [hr]; exact H'
  · rw [hr]; exact H'

/-- What a `TRewindAbleInput` yields after `Rewind`. -/
theorem Rewinds.yields (H : r.Rewinds xs f) : Yields HasData r.rewind xs f := by
  refine ⟨fun r ys => ∃ xs, r.Rewinds xs f ∧ xs = r.tmp.flatten ++ ys, ?_, xs, H.rewind, rfl⟩
  rintro r ys ⟨xs, H, hxs⟩
  rcases H.recv with ⟨hold, hx, r', hr, H', htmp, -⟩ | ⟨l, r', zs, hr, hl, hx, H', htmp⟩
  · have hys : ys = [] := by simpa using hxs.symm.trans hx
    subst hys
    exact .inl ⟨rfl, r', hr, xs, H', by rw [htmp, hx, List.append_nil]⟩
  · have hys : ys = l.flatten ++ zs := List.append_cancel_left (hxs.symm.trans hx)
    subst hys
    exact .inr ⟨l, r', zs, hr, hl, hl, rfl, xs, H', by simp [htmp, hx]⟩

/-- A step of a handler and of the balancer's loop: a `Recv` or a `Rewind`. -/
def Uses (r r' : TRewindAbleInput σ) : Prop := r' = (recv r).2 ∨ r' = r.rewind

theorem Rewinds.uses (H : r.Rewinds xs f) {r' : TRewindAbleInput σ}
    (h : Relation.ReflTransGen Uses r r') : r'.Rewinds xs f := by
  induction h with
  | refl => exact H
  | tail _ h ih =>
    rcases h with rfl | rfl
    · exact ih.recv_snd
    · exact ih.rewind

/-! ### Replays

Nothing is assumed about the slave here: it may end or throw at any time, go on afterwards, and hand
out lists without data. -/

/-- A call on the input. -/
inductive TReplayCall where
  | recv
  | rewind
  deriving DecidableEq, Repr

/-- A call, with the bytes that the `Recv` calls since the last `Rewind` returned. -/
def call : TRewindAbleInput σ × List UInt8 → TReplayCall → TRewindAbleInput σ × List UInt8
  | (r, seen), .recv =>
    match recv r with
    | (.ok lst, r) => (r, seen ++ lst.flatten)
    | (.error _, r) => (r, seen)
  | (r, _), .rewind => (r.rewind, [])

def calls (s : σ) (cs : List TReplayCall) : TRewindAbleInput σ × List UInt8 :=
  cs.foldl call (⟨[], [], s⟩, [])

/-- `k` lists were taken from the slave `s`: their bytes are those that were seen since the last
`Rewind` and those that wait to be seen again. `Old_` is refilled only by `Rewind`, which empties
`Tmp_`, and it is handed out as a whole. -/
structure Replays (s : σ) (k : Nat) (st : TRewindAbleInput σ × List UInt8) : Prop where
  slave : st.1.slave = (taken s k).2
  bytes : st.2 ++ st.1.old.flatten = (taken s k).1
  seen : st.1.tmp.flatten = st.2
  old : st.1.old = [] ∨ st.1.tmp = []

theorem Replays.rewind {s : σ} {k : Nat} {st : TRewindAbleInput σ × List UInt8}
    (H : Replays s k st) : Replays s k (call st .rewind) := by
  refine ⟨H.slave, ?_, rfl, .inr rfl⟩
  rw [← H.bytes, ← H.seen]
  rcases H.old with h | h <;> simp [call, TRewindAbleInput.rewind, h]

theorem Replays.recv {s : σ} {k : Nat} {st : TRewindAbleInput σ × List UInt8} (H : Replays s k st) :
    ∃ k', Replays s k' (call st .recv) := by
  obtain ⟨⟨old, tmp, slave⟩, seen⟩ := st
  obtain ⟨hslave, hbytes, hseen, hold⟩ := H
  simp only at hslave hbytes hseen hold
  by_cases h0 : old = []
  · -- the slave is asked for its next list
    subst h0
    rcases hr : Source.recv slave with ⟨e | l, slave'⟩
    · have hrecv : Source.recv (⟨[], tmp, slave⟩ : TRewindAbleInput σ) =
          (.error e, ⟨[], tmp, slave'⟩) := by
        rw [recv_eq, doRecv_error rfl (congrArg Prod.fst hr), hr]
      have ht := taken_error (hslave ▸ hr)
      refine ⟨k + 1, ?_, ?_, ?_, .inl ?_⟩ <;> simp only [call, hrecv]
      · rw [ht]
      · rw [ht]; exact hbytes
      · exact hseen
    · have hrecv : Source.recv (⟨[], tmp, slave⟩ : TRewindAbleInput σ) =
          (.ok l, ⟨[], tmp ++ l, slave'⟩) := by
        rw [recv_eq, doRecv_ok rfl (congrArg Prod.fst hr), hr]
      have ht := taken_ok (hslave ▸ hr)
      refine ⟨k + 1, ?_, ?_, ?_, .inl ?_⟩ <;> simp only [call, hrecv]
      · rw [ht]
      · rw [ht, ← hbytes]; simp
      · rw [List.flatten_append, hseen]
  · have hrecv : Source.recv (⟨old, tmp, slave⟩ : TRewindAbleInput σ) =
        (.ok old, ⟨[], tmp ++ old, slave⟩) := by
      rw [recv_eq, doRecv_old h0]
    refine ⟨k, ?_, ?_, ?_, .inl ?_⟩ <;> simp only [call, hrecv]
    · exact hslave
    · simpa using hbytes
    · rw [List.flatten_append, hseen]

theorem replays_foldl {s : σ} {k : Nat} {st : TRewindAbleInput σ × List UInt8} (H : Replays s k st)
    (cs : List TReplayCall) : ∃ k', Replays s k' (cs.foldl call st) := by
  induction cs generalizing k st with
  | nil => exact ⟨k, H⟩
  | cons c cs ih =>
    cases c with
    | recv =>
      obtain ⟨k', H'⟩ := H.recv
      exact ih H'
    | rewind => exact ih H.rewind

/-- After any calls, the bytes returned since the last `Rewind` are a prefix of what the slave has
handed out in its first `k` answers. The next `Recv` returns exactly the rest of that, or, when
nothing of it is left, the slave's next answer. -/
theorem replay_continues (s : σ) (cs : List TReplayCall) :
    ∃ k, (calls s cs).1.slave = (taken s k).2 ∧
      (calls s cs).2 ++ (calls s cs).1.old.flatten = (taken s k).1 ∧
      (recv (calls s cs).1).1 =
        if (calls s cs).1.old = [] then (recv (taken s k).2).1 else .ok (calls s cs).1.old := by
  have H₀ : Replays s 0 (⟨[], [], s⟩, []) := ⟨rfl, rfl, rfl, .inl rfl⟩
  obtain ⟨k, H⟩ := replays_foldl H₀ cs
  refine ⟨k, H.slave, H.bytes, ?_⟩
  rw [show (taken s k).2 = (calls s cs).1.slave from H.slave.symm]
  generalize (calls s cs).1 = r
  rw [recv_eq]
  split
  · next h =>
    cases hr : (recv r.slave).1 with
    | ok l => rw [doRecv_ok h hr]
    | error e => rw [doRecv_error h hr]
  · next h => rw [doRecv_old h]

end TRewindAbleInput

/-! ### `TOwnedInput` and `TConcatInput` -/

theorem TOwnedInput.yields {u : TChunkList} (hu : ∀ c ∈ u, c ≠ []) :
    Yields Proper (TOwnedInput.mk u) u.flatten none := by
  refine ⟨fun i xs => (∀ c ∈ i.chunks, c ≠ []) ∧ xs = i.chunks.flatten, ?_, hu, rfl⟩
  rintro ⟨u⟩ xs ⟨hu, rfl⟩
  by_cases h0 : u = []
  · subst h0
    exact .inl ⟨rfl, ⟨[]⟩, rfl, hu, rfl⟩
  · have hp : Proper u := ⟨h0, hu⟩
    exact .inr ⟨u, ⟨[]⟩, [], rfl, hp.hasData, hp, by simp, by simp, rfl⟩

namespace TConcatInput

variable {φ σ : Type} [IIoInput φ] [IIoInput σ] {Q : TChunkList → Prop}

theorem yields {a : φ} {b : σ} {xs ys : List UInt8} {f : Option TException}
    (ha : Yields Q a xs none) (hb : Yields Q b ys f) :
    Yields Q (TConcatInput.mk a b .first) (xs ++ ys) f := by
  refine ⟨fun c zs => (c.stage = .first ∧ ∃ xs ys,
    zs = xs ++ ys ∧ Yields Q c.f xs none ∧ Yields Q c.s ys f) ∨
    (c.stage = .second ∧ Yields Q c.s zs f) ∨ (c.stage = .null ∧ zs = [] ∧ f = none), ?_,
    .inl ⟨rfl, xs, ys, rfl, ha, hb⟩⟩
  rintro ⟨a, b, stage⟩ zs (⟨rfl, xs, ys, rfl, ha, hb⟩ | ⟨rfl, hb⟩ | ⟨rfl, rfl, rfl⟩)
  · by_cases hx : xs = []
    · subst hx
      obtain ⟨a', hr, -⟩ := ha.recv_nil
      by_cases hy : ys = []
      · subst hy
        obtain ⟨b', hr', hb'⟩ := hb.recv_nil
        refine .inl ⟨rfl, ⟨a', b', .second⟩, ?_, .inr (.inl ⟨rfl, hb'⟩)⟩
        rw [recv_eq, doRecv_switch hr, hr']
      · obtain ⟨l, b', zs, hr', hl, hq, rfl, hb'⟩ := hb.recv_cons hy
        refine .inr ⟨l, ⟨a', b', .second⟩, zs, ?_, hl, hq, rfl, .inr (.inl ⟨rfl, hb'⟩)⟩
        rw [recv_eq, doRecv_switch hr, hr']
    · obtain ⟨l, a', zs, hr, hl, hq, rfl, ha'⟩ := ha.recv_cons hx
      refine .inr ⟨l, ⟨a', b, .first⟩, zs ++ ys, ?_, hl, hq, by simp,
        .inl ⟨rfl, zs, ys, rfl, ha', hb⟩⟩
      rw [recv_eq, doRecv_first, hr]
      rw [hr]
      exact fun h => hl.ne_nil (Except.ok.inj h)
  · by_cases hz : zs = []
    · subst hz
      obtain ⟨b', hr, hb'⟩ := hb.recv_nil
      cases f with
      | none =>
        refine .inl ⟨rfl, ⟨a, b', .null⟩, ?_, .inr (.inr ⟨rfl, rfl, rfl⟩)⟩
        rw [recv_eq, doRecv_end hr]
        rfl
      | some e =>
        refine .inl ⟨rfl, ⟨a, b', .second⟩, ?_, .inr (.inl ⟨rfl, hb'⟩)⟩
        rw [recv_eq, doRecv_second, hr]
        rw [hr]
        exact fun h => by cases h
    · obtain ⟨l, b', ys, hr, hl, hq, rfl, hb'⟩ := hb.recv_cons hz
      refine .inr ⟨l, ⟨a, b', .second⟩, ys, ?_, hl, hq, rfl, .inr (.inl ⟨rfl, hb'⟩)⟩
      rw [recv_eq, doRecv_second, hr]
      rw [hr]
      exact fun h => hl.ne_nil (Except.ok.inj h)
  · exact .inl ⟨rfl, ⟨a, b, .null⟩, rfl, .inr (.inr ⟨rfl, rfl, rfl⟩)⟩

end TConcatInput

/-! ### Requests to a backend -/

/-- What `THttpRequestInput` writes of a request. -/
def forwardedHead (request : TRequest) : List UInt8 :=
  if request.request = [] then []
  else (request.buildTo [Http11.ascii "Connection: Close\r\n"]).flatten

theorem THttpRequestInput.yields (r : TRequest) :
    Yields HasData (THttpRequestInput.ofRequest r [Http11.ascii "Connection: Close\r\n"])
      (forwardedHead r) none := by
  refine ⟨fun i xs => xs = i.r.elim [] fun r => (r.buildTo i.customHeaders).flatten, ?_, ?_⟩
  · rintro ⟨_ | r, custom⟩ xs rfl
    · exact .inl ⟨rfl, ⟨none, custom⟩, rfl, rfl⟩
    · have hd : HasData (r.buildTo custom) := by simp [HasData, TRequest.buildTo, CRLF]
      exact .inr ⟨_, ⟨none, []⟩, [], rfl, hd, hd, (List.append_nil _).symm, rfl⟩
  · unfold forwardedHead THttpRequestInput.ofRequest
    split <;> rfl

theorem proxyInput_yields {σ : Type} [IIoInput σ] {input : σ} {body : List UInt8}
    {f : Option TException} (request : TRequest) (h : Yields HasData input body f) :
    Yields HasData (proxyInput request input) (forwardedHead request ++ body) f :=
  TConcatInput.yields (THttpRequestInput.yields request) h

/-! ### Truncated bodies -/

/-- An input that hands out `xs` and from then on throws, however often it is asked. -/
def Raises {σ : Type} [IIoInput σ] (s : σ) (xs : List UInt8) : Prop :=
  ∃ e, Yields HasData s xs (some e)

theorem Yields.raises_iff {σ : Type} [IIoInput σ] {s : σ} {xs : List UInt8} {f : Option TException}
    (h : Yields HasData s xs f) : Raises s xs ↔ f.isSome := by
  constructor
  · rintro ⟨e, h'⟩
    rw [(h.delivers.unique h'.delivers).2]
    rfl
  · intro hf
    obtain ⟨e, rfl⟩ := Option.isSome_iff_exists.1 hf
    exact ⟨e, h⟩

/-- A request body of `n` bytes of which the connection has only `body`. The handler's input yields
`body` and then raises an exception exactly when the connection itself ends with one: directly, in
every attempt of the balancer after any use of the input before it, in the request that the proxy
writes to a backend, and in both together. -/
theorem truncated_body_raises_iff {σ : Type} [IIoInput σ] (request : TRequest)
    (it : TStreamIterator σ) (body : List UInt8) (f : Option TException) (H : it.Holds body f)
    (n : Nat) (hn : body.length < n) :
    (Raises (TFixedLengthInput.mk it n) body ↔ f.isSome) ∧
    (∀ r, Relation.ReflTransGen TRewindAbleInput.Uses ⟨[], [], TFixedLengthInput.mk it n⟩ r →
      (Raises r.rewind body ↔ f.isSome)) ∧
    (Raises (proxyInput request (TFixedLengthInput.mk it n)) (forwardedHead request ++ body) ↔
      f.isSome) ∧
    (∀ r, Relation.ReflTransGen TRewindAbleInput.Uses ⟨[], [], TFixedLengthInput.mk it n⟩ r →
      (Raises (proxyInput request r.rewind) (forwardedHead request ++ body) ↔ f.isSome)) := by
  have h := TFixedLengthInput.yields_truncated H hn
  have hrewind : ∀ r, Relation.ReflTransGen TRewindAbleInput.Uses
      ⟨[], [], TFixedLengthInput.mk it n⟩ r →
      Yields HasData r.rewind body f :=
    fun r hr => ((TRewindAbleInput.Rewinds.of_yields h).uses hr).yields
  refine ⟨Yields.raises_iff h, fun r hr => Yields.raises_iff (hrewind r hr),
    Yields.raises_iff (proxyInput_yields request h),
    fun r hr => Yields.raises_iff (proxyInput_yields request (hrewind r hr))⟩

/-- One byte of a body of two, after which the client's socket fails. -/
theorem truncated_body_raises_reset :
    Raises (TFixedLengthInput.mk ⟨(⟨[[[7]]], some (.systemError 104 "read")⟩ : TScript), []⟩ 2)
      [7] := by
  have h : Yields Proper (⟨[[[7]]], some (.systemError 104 "read")⟩ : TScript) [7] _ :=
    Script.yields (by decide) _
  exact (truncated_body_raises_iff {} _ [7] _ (.of_yields h) 2 (by decide)).1.2 rfl

/-- One byte of a body of two, after which the client closes the connection. -/
theorem truncated_body_not_raises :
    ¬Raises (TFixedLengthInput.mk ⟨(⟨[[[7]]], none⟩ : TScript), []⟩ 2) [7] := by
  have h : Yields Proper (⟨[[[7]]], none⟩ : TScript) [7] none := Script.yields (by decide) none
  rw [Yields.raises_iff (TFixedLengthInput.yields_truncated (.of_yields h) (by decide))]
  simp

end Balancer
