import Balancer.Kernel.Socket

/-!
# Nothing is lost in the queue of a socket

`Consistent st bs` says that what the socket accepted and what waits in `W_` are together `bs`. Each
event of a `TSocketOut` extends `bs` by what it passes to `DoSend` (`Consistent.step`), so in every
run `bs` is all that was sent (`Consistent.run`). A `Flush()` that returns has found the queue empty
(`flush_returned`), which gives the main result, `run_flush_accepted`.
-/

namespace Balancer

namespace TSocketState

def Consistent (st : TSocketState) (bs : List UInt8) : Prop :=
  st.accepted ++ st.out.w.flatten = bs

variable {st st' : TSocketState} {bs : List UInt8} {r : TFlush}

/-! ## One event -/

theorem flush_cases (c keep : Nat) (st : TSocketState) :
    (st.flush c keep).2.out.w = st.out.w ∧ (st.flush c keep).2.accepted = st.accepted := by
  unfold flush
  split
  · split <;> exact ⟨rfl, rfl⟩
  · exact ⟨rfl, rfl⟩

theorem Consistent.flush (h : st.Consistent bs) (c keep : Nat) :
    (st.flush c keep).2.Consistent bs := by
  obtain ⟨hw, ha⟩ := flush_cases c keep st
  rw [Consistent, hw, ha]
  exact h

theorem Consistent.doSend (h : st.Consistent bs) (c : Nat) (lst : TChunkList) :
    (st.doSend c lst).2.Consistent (bs ++ lst.flatten) := by
  apply Consistent.flush
  unfold Consistent at h ⊢
  simp only [List.flatten_append]
  rw [← List.append_assoc, h]

/-- The callback leaves the queue alone, or moves what `writev` took of it to the socket. When that
is all of it `Clear` loses nothing. -/
theorem onPollEvent_cases {status : Int} {wr : TWriteV}
    (hst : st.onPollEvent status wr = some st') :
    (st'.out.w = st.out.w ∧ st'.accepted = st.accepted) ∨
      ∃ n, wr = .written n ∧ st'.out.w = (st.out.w.split n).2 ∧
        st'.accepted = st.accepted ++ st.out.w.flatten.take n := by
  unfold TSocketState.onPollEvent at hst
  simp only at hst
  split at hst
  · cases hst
    exact .inl ⟨rfl, rfl⟩
  · cases wr with
    | failed errno =>
      cases hst
      exact .inl ⟨rfl, rfl⟩
    | written n =>
      rw [if_neg (show ¬(TWriteV.written n).res < 0 from Int.not_lt.2 (Int.natCast_nonneg n))]
        at hst
      by_cases hfull : n = st.out.w.fullLength
      · rw [if_pos (show (TWriteV.written n).res.toNat = _ from hfull)] at hst
        cases hst
        rw [TChunkList.fullLength_eq] at hfull
        exact .inr ⟨n, rfl, by rw [TChunkList.split_of_le hfull.ge], rfl⟩
      · rw [if_neg (show ¬(TWriteV.written n).res.toNat = _ from hfull)] at hst
        cases hst
        exact .inr ⟨n, rfl, rfl, rfl⟩

theorem Consistent.onPollEvent (h : st.Consistent bs) (status : Int) (wr : TWriteV)
    (hst : st.onPollEvent status wr = some st') : st'.Consistent bs := by
  rcases onPollEvent_cases hst with ⟨hw, ha⟩ | ⟨n, -, hw, ha⟩
  · rw [Consistent, hw, ha]
    exact h
  · rw [Consistent, hw, ha, TChunkList.split_snd_flatten, List.append_assoc, List.take_append_drop]
    exact h

theorem Consistent.step (h : st.Consistent bs) {ev : TSocketEvent}
    (hst : st.step ev = some (r, st')) : st'.Consistent (bs ++ ev.passed) := by
  unfold TSocketState.step at hst
  split at hst
  · cases ev with
    | doSend c lst =>
      have := h.doSend c lst
      rwa [Option.some.inj hst] at this
    | flush c =>
      have := h.flush c 0
      rw [Option.some.inj hst] at this
      simpa [TSocketEvent.passed] using this
    | resume c keep =>
      have h' : ({ st with
          out := { st.out with wake := none }, sleeping := st.sleeping.erase (c, keep) } :
          TSocketState).Consistent bs := h
      have := h'.flush c keep
      rw [← resume, Option.some.inj hst] at this
      simpa [TSocketEvent.passed] using this
    | onPollEvent status wr =>
      obtain ⟨st₁, h₁, heq⟩ := Option.map_eq_some_iff.1 hst
      cases heq
      simpa [TSocketEvent.passed] using h.onPollEvent status wr h₁
  · cases hst

/-! ## Runs -/

theorem Consistent.run (h : st.Consistent bs) {evs : List TSocketEvent}
    (hst : st.run evs = some st') : st'.Consistent (bs ++ evs.flatMap TSocketEvent.passed) := by
  induction evs generalizing st bs with
  | nil =>
    cases hst
    simpa using h
  | cons ev evs ih =>
    obtain ⟨⟨r, st₁⟩, h₁, h₂⟩ := Option.bind_eq_some_iff.1 hst
    have := ih (h.step h₁) h₂
    rwa [List.append_assoc] at this

theorem flush_returned {c keep : Nat} (h : st.flush c keep = (.returned, st')) :
    st'.out.w.fullLength ≤ keep := by
  unfold flush at h
  split at h
  · split at h <;> cases h
  · next hle =>
    cases h
    exact Nat.le_of_not_lt hle

theorem step_flush_returned {ev : TSocketEvent} (hev : ev.IsFlush)
    (h : st.step ev = some (.returned, st')) : st'.out.w.flatten = [] := by
  have hempty : st'.out.w.fullLength ≤ 0 := by
    unfold step at h
    split at h
    · cases ev with
      | doSend => cases hev
      | flush c => exact flush_returned (Option.some.inj h)
      | resume c keep =>
        cases hev
        exact flush_returned (Option.some.inj h)
      | onPollEvent => cases hev
    · cases h
  rw [TChunkList.fullLength_eq] at hempty
  exact List.length_eq_zero_iff.1 (Nat.le_zero.1 hempty)

end TSocketState

/-- In every run of a fresh `TSocketOut` the accepted bytes and the queue are together all that was
passed to `DoSend`, in call order; and when a call of `Flush()` returns at the end of the run the
socket has accepted all of it. -/
theorem run_flush_accepted (maxInQueue : Nat) (evs : List TSocketEvent) (st : TSocketState)
    (hrun : (TSocketState.init maxInQueue).run evs = some st) :
    st.accepted ++ st.out.w.flatten = evs.flatMap TSocketEvent.passed ∧
      ∀ ev st', ev.IsFlush → st.step ev = some (.returned, st') →
        st'.accepted = (evs ++ [ev]).flatMap TSocketEvent.passed := by
  have hinit : (TSocketState.init maxInQueue).Consistent [] := rfl
  have h := hinit.run hrun
  rw [List.nil_append] at h
  refine ⟨h, fun ev st' hev hst => ?_⟩
  have hstep := h.step hst
  have hempty := TSocketState.step_flush_returned hev hst
  rw [TSocketState.Consistent, hempty, List.append_nil] at hstep
  simpa [List.flatMap_append] using hstep


/-- Two sends, a partial write inside the second chunk, a full write and a final `Flush()`. -/
theorem run_flush_accepted_sample :
    ∃ st, (TSocketState.init 2).run [.doSend 0 [[1], [2, 3]], .onPollEvent 0 (.written 2),
      .doSend 1 [[4]],
        .onPollEvent 0 (.written 2)] = some st ∧
      st.step (.flush 2) = some (.returned, st) ∧ st.accepted = [1, 2, 3, 4] := by
  refine ⟨_, rfl, rfl, ?_⟩
  exact (run_flush_accepted 2 [.doSend 0 [[1], [2, 3]], .onPollEvent 0 (.written 2),
    .doSend 1 [[4]], .onPollEvent 0 (.written 2)] _ rfl).2 (.flush 2) _ trivial rfl

end Balancer
