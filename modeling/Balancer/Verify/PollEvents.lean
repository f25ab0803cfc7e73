import Balancer.Verify.SocketOut

/-!
# What the callback of the poller does with `writev`

`OnPollEvent` offers the whole queue to `writev`, one part for each chunk, and takes the negated
result of a failed call for the error number. The result of a failed `writev` is always -1, so
whatever went wrong is recorded as the error 1 (`onPollEvent_failed`), and a socket that is not
ready loses its registration as well (`pollEvent_reported_iff`).

The number of parts is the number of chunks that were sent and are not completely written
(`Queued.length_eq`), for which there is no bound (`pollEvent_parts_iff`).
-/

namespace Balancer

open TChunkList TSocketState

namespace TSocketState

/-! ### Errors -/

theorem flush_threw {st : TSocketState} {keep : Nat} (h : keep < st.out.w.fullLength)
    (herr : st.out.err ≠ 0) (c : Nat) :
    (st.flush c keep).1 = .threw (.systemError st.out.err "send failed") := by
  rw [flush, if_pos h, if_pos herr]

/-- The error number of `writev` does not get through: -1 is negated. -/
theorem onPollEvent_failed (st : TSocketState) (e : Int) :
    st.onPollEvent 0 (.failed e) = some { st with
      out := { st.out with err := 1 }
      scheduled := false
      ready := st.ready ++ st.out.wake.toList } := rfl

/-- What is expected when `writev` fails with `e`: a socket that is not ready leaves everything as
it was but for the wake-up; any other error is thrown by the next `Flush` that finds data, be it its
own or that of a `DoSend`, with the number that `WriteVectorD` reports. -/
def ReportsError (st : TSocketState) (e : Int) : Prop :=
  ∃ st', st.onPollEvent 0 (.failed e) = some st' ∧
    if isBlocked e then
      st'.out.w = st.out.w ∧ st'.scheduled = st.scheduled ∧ st'.out.err = st.out.err
    else
      (∀ part parts written poll turns,
        writeVectorD (part :: parts) written ((.failed e, poll) :: turns) = some ⟨written, e⟩) ∧
      ∀ c keep lst, keep < (st.out.w ++ lst).fullLength →
        ∃ x, (flush c keep { st' with out := { st'.out with w := st'.out.w ++ lst } }).1 =
          .threw x ∧ x.asSystemError = some e

end TSocketState

/-- Every state in which the socket is registered, and every error number: a failing `writev` is
reported as it should be if and only if the number is 1. -/
theorem pollEvent_reported_iff (st : TSocketState) (hs : st.scheduled = true) (e : Int) :
    st.ReportsError e ↔ e = 1 := by
  constructor
  · rintro ⟨st', h, hrep⟩
    rw [st.onPollEvent_failed] at h
    cases h
    split at hrep
    · -- the registration is gone
      obtain ⟨-, hsch, -⟩ := hrep
      rw [hs] at hsch
      cases hsch
    · have hlen : 0 < (st.out.w ++ [[0]]).fullLength := by
        rw [fullLength_eq]
        simp
      obtain ⟨x, hx, hstatus⟩ := hrep.2 0 0 [[0]] hlen
      rw [flush_threw hlen (one_ne_zero : (1 : Int) ≠ 0)] at hx
      cases hx
      exact (Option.some.inj hstatus).symm
  · rintro rfl
    refine ⟨_, st.onPollEvent_failed 1, ?_⟩
    rw [if_neg (by decide)]
    refine ⟨fun part parts written poll turns => rfl, fun c keep lst hlen => ?_⟩
    exact ⟨_, flush_threw hlen (one_ne_zero : (1 : Int) ≠ 0) c, rfl⟩

/-- A socket with one byte to write. -/
def oneByte : TSocketState :=
  { TSocketState.init 0 with out := { w := [[0]], maxInQueue := 0 }, scheduled := true }

theorem pollEvent_reported_one : oneByte.ReportsError 1 :=
  (pollEvent_reported_iff oneByte rfl 1).2 rfl

/-- A client that closed its connection is not reported as `EPIPE`. -/
theorem pollEvent_epipe : oneByte.scheduled = true ∧ ¬oneByte.ReportsError EPIPE := by
  refine ⟨rfl, ?_⟩
  rintro ⟨st', h, hrep⟩
  cases h
  obtain ⟨x, hx, hstatus⟩ := hrep.2 0 0 [] (by decide)
  cases hx
  cases hstatus

/-! ### Parts -/

namespace TChunkList

/-- The number of chunks whose last byte is not among the first `n` bytes. -/
def unwritten (n : Nat) (cs : TChunkList) : Nat :=
  cs.inits.tail.countP fun pre => decide (n < pre.flatten.length)

theorem unwritten_cons (n : Nat) (c : TChunk) (cs : TChunkList) :
    unwritten n (c :: cs) = cs.inits.countP fun pre =>
      decide (n < c.length + pre.flatten.length) := by
  simp [unwritten, List.countP_map, Function.comp_def]

theorem unwritten_cons_le {n : Nat} {c : TChunk} (h : c.length ≤ n) (cs : TChunkList) :
    unwritten n (c :: cs) = unwritten (n - c.length) cs := by
  have hinits : cs.inits = [] :: cs.inits.tail := by cases cs <;> simp
  rw [unwritten_cons, hinits, List.countP_cons_of_neg (by simpa using h), unwritten]
  apply List.countP_congr
  intro pre _
  simp only [decide_eq_true_eq]
  omega

theorem unwritten_cons_gt {n : Nat} {c : TChunk} (h : n < c.length) (cs : TChunkList) :
    unwritten n (c :: cs) = cs.length + 1 := by
  rw [unwritten_cons, List.countP_eq_length.2 (by simp; omega), List.length_inits]

/-- What is left behind a cut is what is not completely written. -/
theorem split_snd_length (n : Nat) (cs : TChunkList) : (split n cs).2.length = unwritten n cs := by
  induction cs generalizing n with
  | nil => rfl
  | cons c cs ih =>
    by_cases h : c.length ≤ n
    · rw [split_cons_le h, unwritten_cons_le h, ← ih]
    · rw [split_cons_gt (Nat.lt_of_not_le h), unwritten_cons_gt (Nat.lt_of_not_le h),
        List.length_cons]

/-- Lists that are sent behind a cut stay there. -/
theorem split_append_snd {n : Nat} {cs lst : TChunkList} (hn : n ≤ cs.flatten.length)
    (hlst : ∀ c ∈ lst, c ≠ []) : (split n (cs ++ lst)).2 = (split n cs).2 ++ lst := by
  induction cs generalizing n with
  | nil =>
    obtain rfl : n = 0 := Nat.le_zero.1 hn
    cases lst with
    | nil => rfl
    | cons c lst =>
      have hc := List.length_pos_iff.2 (hlst c (List.mem_cons_self ..))
      rw [List.nil_append, split_cons_gt hc]
      rfl
  | cons c cs ih =>
    rw [List.flatten_cons, List.length_append] at hn
    rw [List.cons_append]
    by_cases h : c.length ≤ n
    · rw [split_cons_le h, split_cons_le h, ih (by omega)]
    · rw [split_cons_gt (Nat.lt_of_not_le h), split_cons_gt (Nat.lt_of_not_le h), List.cons_append]

/-- Two cuts in a row. -/
theorem split_split_snd (n m : Nat) (cs : TChunkList) :
    ((split n cs).2.split m).2 = (split (n + m) cs).2 := by
  induction cs generalizing n with
  | nil => rfl
  | cons c cs ih =>
    by_cases h : c.length ≤ n
    · rw [split_cons_le h, split_cons_le (by omega), ih, Nat.sub_add_comm h]
    · have hn := Nat.lt_of_not_le h
      rw [split_cons_gt hn]
      have hdrop : (c.drop n).length = c.length - n := List.length_drop
      by_cases h' : c.length ≤ n + m
      · have hm : m - (c.drop n).length = n + m - c.length := by omega
        rw [split_cons_le (by omega), split_cons_le h', hm]
      · rw [split_cons_gt (by omega), split_cons_gt (Nat.lt_of_not_le h'), List.drop_drop]

end TChunkList

/-- The chunks that an event passes to `DoSend`. -/
def TSocketEvent.chunks : TSocketEvent → TChunkList
  | .doSend _ lst => lst
  | _ => []

namespace TSocketState

variable {st st' : TSocketState} {cs : TChunkList}

/-- The queue is what is left of the chunks `cs` when the bytes that the socket has accepted are cut
off. -/
structure Queued (st : TSocketState) (cs : TChunkList) : Prop where
  queue : st.out.w = (cs.split st.accepted.length).2
  consistent : st.Consistent cs.flatten

theorem Queued.accepted_le (H : st.Queued cs) : st.accepted.length ≤ cs.flatten.length := by
  rw [← H.consistent, List.length_append]
  exact Nat.le_add_right ..

theorem Queued.length_eq (H : st.Queued cs) :
    st.out.w.length = cs.unwritten st.accepted.length := by
  rw [H.queue, split_snd_length]

theorem Queued.flush (H : st.Queued cs) (c keep : Nat) : (st.flush c keep).2.Queued cs := by
  obtain ⟨hw, ha⟩ := flush_cases c keep st
  exact ⟨by rw [hw, ha, H.queue], H.consistent.flush c keep⟩

theorem Queued.doSend (H : st.Queued cs) (c : Nat) (lst : TChunkList) (hlst : ∀ b ∈ lst, b ≠ []) :
    (st.doSend c lst).2.Queued (cs ++ lst) := by
  apply Queued.flush
  refine ⟨?_, ?_⟩
  · rw [split_append_snd H.accepted_le hlst, ← H.queue]
  · have := H.consistent
    unfold Consistent at this ⊢
    simp only [List.flatten_append]
    rw [← List.append_assoc, this]

/-- The callback cuts off what `writev` took. -/
theorem Queued.onPollEvent (H : st.Queued cs) {status : Int} {wr : TWriteV}
    (hen : st.Enabled (.onPollEvent status wr)) (h : st.onPollEvent status wr = some st') :
    st'.Queued cs := by
  refine ⟨?_, H.consistent.onPollEvent status wr h⟩
  rcases onPollEvent_cases h with ⟨hw, ha⟩ | ⟨n, rfl, hw, ha⟩
  · rw [hw, ha, H.queue]
  · have hn : n ≤ st.out.w.flatten.length := by
      rw [← fullLength_eq]
      exact hen
    rw [hw, ha, List.length_append, List.length_take_of_le hn, H.queue, split_split_snd]

theorem Queued.step (H : st.Queued cs) {ev : TSocketEvent} (hev : ∀ b ∈ ev.chunks, b ≠ [])
    {r : TFlush} (h : st.step ev = some (r, st')) : st'.Queued (cs ++ ev.chunks) := by
  unfold TSocketState.step at h
  split at h
  · next hen =>
    cases ev with
    | doSend c lst =>
      have := H.doSend c lst hev
      rwa [Option.some.inj h] at this
    | flush c =>
      have := H.flush c 0
      rw [Option.some.inj h] at this
      simpa [TSocketEvent.chunks] using this
    | resume c keep =>
      have H' : ({ st with out := { st.out with wake := none },
                           sleeping := st.sleeping.erase (c, keep) } : TSocketState).Queued cs :=
        ⟨H.queue, H.consistent⟩
      have := H'.flush c keep
      rw [← resume, Option.some.inj h] at this
      simpa [TSocketEvent.chunks] using this
    | onPollEvent status wr =>
      obtain ⟨st₁, h₁, heq⟩ := Option.map_eq_some_iff.1 h
      cases heq
      simpa [TSocketEvent.chunks] using H.onPollEvent hen h₁
  · cases h

theorem Queued.run (H : st.Queued cs) {evs : List TSocketEvent}
    (hevs : ∀ ev ∈ evs, ∀ b ∈ ev.chunks, b ≠ []) (h : st.run evs = some st') :
    st'.Queued (cs ++ evs.flatMap TSocketEvent.chunks) := by
  induction evs generalizing st cs with
  | nil =>
    cases h
    simpa using H
  | cons ev evs ih =>
    obtain ⟨⟨r, st₁⟩, h₁, h₂⟩ := Option.bind_eq_some_iff.1 h
    have hstep := H.step (hevs ev (List.mem_cons_self ..)) h₁
    have := ih hstep (List.forall_mem_cons.1 hevs).2 h₂
    rwa [List.append_assoc] at this

/-- A callback in which `writev` succeeds records no error. -/
theorem onPollEvent_written (st : TSocketState) (n : Nat) :
    ∃ st', st.onPollEvent 0 (.written n) = some st' ∧ st'.out.err = st.out.err := by
  have hres : ¬(TWriteV.written n).res < 0 := Int.not_lt.2 (Int.natCast_nonneg n)
  rw [onPollEvent, if_neg (not_not_intro rfl), if_neg hres]
  by_cases hfull : (TWriteV.written n).res.toNat = st.out.w.fullLength
  · exact ⟨_, if_pos hfull, rfl⟩
  · exact ⟨_, if_neg hfull, rfl⟩

/-- `writev` on a socket that can take `n` bytes. -/
def writeVWritable (parts n : Nat) : TWriteV :=
  if parts ≤ IOV_MAX then .written n else .failed EINVAL

/-- The next callback passes no more parts to `writev` than it takes, and so it records no failure
of a socket that can be written to. -/
def PartsFit (st : TSocketState) : Prop :=
  st.out.w.length ≤ IOV_MAX ∧ ∀ n ≤ st.out.w.fullLength,
    ∃ st', st.onPollEvent 0 (writeVWritable st.out.w.length n) = some st' ∧ st'.out.err = st.out.err

end TSocketState

/-- Every queue limit and every run of sends without empty chunks, wake-ups and callbacks: in the
state that it leads to the parts fit into one `writev` if and only if at most `IOV_MAX` of the
chunks that were sent are not completely written. -/
theorem pollEvent_parts_iff (maxInQueue : Nat) (evs : List TSocketEvent)
    (hevs : ∀ ev ∈ evs, ∀ b ∈ ev.chunks, b ≠ []) (st : TSocketState)
    (hrun : (TSocketState.init maxInQueue).run evs = some st) :
    st.PartsFit ↔
      unwritten st.accepted.length (evs.flatMap TSocketEvent.chunks) ≤ IOV_MAX := by
  have hinit : (TSocketState.init maxInQueue).Queued [] := ⟨rfl, rfl⟩
  have H := hinit.run hevs hrun
  rw [List.nil_append] at H
  rw [← H.length_eq]
  refine ⟨And.left, fun hle => ⟨hle, fun n _ => ?_⟩⟩
  rw [writeVWritable, if_pos hle]
  exact st.onPollEvent_written n

/-- Two chunks of which one is written. -/
theorem pollEvent_parts_two : ∃ st, (TSocketState.init 0).run
      [.doSend 0 [[1], [2]], .onPollEvent 0 (.written 1)] = some st ∧ st.PartsFit := by
  refine ⟨_, rfl, ?_⟩
  exact (pollEvent_parts_iff 0 [.doSend 0 [[1], [2]], .onPollEvent 0 (.written 1)]
    (by decide) _ rfl).2 (by decide)

/-- One `Send` of 1025 chunks of one byte each. -/
theorem pollEvent_parts_many : (∀ b ∈ List.replicate 1025 [0], b ≠ ([] : TChunk)) ∧
    ∃ st, (TSocketState.init 2048).run [.doSend 0 (List.replicate 1025 [0])] = some st ∧
      ¬st.PartsFit := by
  refine ⟨fun b hb => ?_, ((TSocketState.init 2048).doSend 0 (List.replicate 1025 [0])).2, rfl,
    fun h => ?_⟩
  · rw [List.eq_of_mem_replicate hb]
    exact List.cons_ne_nil _ _
  · have hlen := h.1
    rw [TSocketState.doSend, (flush_cases ..).1, List.length_append, List.length_replicate]
      at hlen
    exact absurd hlen (by decide)

end Balancer
