import Balancer.Modules.Proxy.Proxy

/-!
# `TProxy::Run` waits for its coroutine

On the way through `f.Wait()` the signal of the coroutine is not missed: it is kept in `S_` when it
comes before the wait, and wakes the waiting coroutine when it comes later (`Synchronized`). So
`TProxy::Run` outlives the coroutine of `f` exactly when it does not leave by an exception of
`t.Run` and is not cancelled while that coroutine still runs (`proxy_joined_iff`).
-/

namespace Balancer

open Runs

namespace TProxyState

/-- The coroutine of `f` has ended. -/
def ForwardEnded (st : TProxyState) : Prop := ∃ ok, st.f = .left ok

/-- Once `TProxy::Run` is left, the coroutine of `f` can not make another step. -/
def Joined (st : TProxyState) : Prop :=
  st.run = .returned ∨ st.run = .threw → ∀ call, system.step st (.forward call) = none

/-- `t.Run` does not throw, and no cancelled coroutine comes back from the wait, before the
coroutine of `f` has ended. -/
def LeavesLast (st : TProxyState) : TProxyEvent → Prop
  | .back .threw => st.ForwardEnded
  | .back (.recv false) | .resume => proxyCont ∈ st.e.cancelled → st.ForwardEnded
  | _ => True

variable {st st' : TProxyState}

theorem forward_eq_none_iff : (∀ call, st.forward call = none) ↔ st.ForwardEnded := by
  constructor
  · intro h
    cases hf : st.f with
    | recv => simpa [forward, TWorkerPosition.step, hf] using h (.recv true)
    | send => simpa [forward, TWorkerPosition.step, hf] using h .send
    | left ok => exact ⟨ok, hf⟩
  · rintro ⟨ok, hf⟩ call
    simp [forward, TWorkerPosition.step, hf]

theorem joined_iff : st.Joined ↔ (st.run = .returned ∨ st.run = .threw → st.ForwardEnded) := by
  unfold Joined
  rw [← forward_eq_none_iff]
  rfl

/-! ### What a step does -/

theorem forward_cases {call : TWorkerCall} (h : st.forward call = some st') :
    ¬st.ForwardEnded ∧ st'.run = st.run ∧
      (st'.f = .recv ∨ st'.f = .send) ∧ st'.event = st.event ∧ st'.e = st.e ∨
    ¬st.ForwardEnded ∧ st'.run = st.run ∧ st'.ForwardEnded ∧
      st'.event = { st.event with s := true } ∧
      st'.e.cancelled = st.e.cancelled ∧
      (st'.e.ready = st.e.ready ∨ ∃ c, st'.e.ready = st.e.ready.erase c ++ [c]) := by
  have hne : ¬st.ForwardEnded := by
    intro hf
    rw [forward_eq_none_iff.2 hf call] at h
    cases h
  unfold forward at h
  cases hs : st.f.step call with
  | none => simp [hs] at h
  | some f =>
    cases f with
    | recv | send =>
      simp only [hs, Option.some.injEq] at h
      subst h
      exact .inl ⟨hne, rfl, by simp, rfl, rfl⟩
    | left ok =>
      simp only [hs, Option.some.injEq] at h
      subst h
      refine .inr ⟨hne, rfl, ⟨ok, rfl⟩, rfl, ?_, ?_⟩
      · simp only [TMyEvent.signal]
        cases st.event.ev <;> rfl
      · simp only [TMyEvent.signal]
        cases hev : st.event.ev with
        | none => exact .inl rfl
        | some c => exact .inr ⟨c, rfl⟩

/-- `f.Wait()` takes the signal, does not wait in a cancelled coroutine, or waits. -/
theorem wait_cases (st : TProxyState) :
    (st.event.s = true ∨ proxyCont ∈ st.e.cancelled) ∧
      st.wait = { st with event := .waited, run := .returned } ∨
    st.event.s = false ∧ proxyCont ∉ st.e.cancelled ∧
      st.wait.f = st.f ∧ st.wait.run = .waiting ∧
      st.wait.event = { st.event with ev := some proxyCont } ∧
      st.wait.e.cancelled = st.e.cancelled ∧ st.wait.e.ready = st.e.ready.erase proxyCont := by
  cases hs : st.event.s with
  | true => exact .inl ⟨.inl rfl, by simp [wait, TMyEvent.wait_signalled hs]⟩
  | false =>
    by_cases hc : proxyCont ∈ st.e.cancelled
    · refine .inl ⟨.inr hc, ?_⟩
      have hw := st.event.wait_cancelled (e := { st.e with current := proxyCont }) hc
      simp [wait, hw]
    · have he := TContExecutor.executeEvent_switched (e := { st.e with current := proxyCont }) hc
      refine .inr ⟨rfl, hc, ?_⟩
      simp [wait, TMyEvent.wait, hs, he]

/-- `t.Run` goes on, throws, or returns to the wait. -/
theorem back_cases {call : TWorkerCall} (h : st.back call = some st') :
    st.run = .copying ∧
      ((call ≠ .threw ∧ call ≠ .recv false ∧ ∃ t, st' = { st with t }) ∨
        (call = .threw ∧ st' = { st with t := .left false, run := .threw }) ∨
        (call = .recv false ∧ st' = ({ st with t := .left true } : TProxyState).wait)) := by
  unfold back at h
  split at h
  · next hrun =>
    refine ⟨hrun, ?_⟩
    cases call with
    | threw =>
      cases ht : st.t <;> simp [ht, TWorkerPosition.step] at h
      all_goals exact .inr (.inl ⟨rfl, h.symm⟩)
    | send =>
      cases ht : st.t <;> simp [ht, TWorkerPosition.step] at h
      exact .inl ⟨by simp, by simp, _, h.symm⟩
    | recv data =>
      cases ht : st.t <;> cases data <;> simp [ht, TWorkerPosition.step] at h
      · exact .inr (.inr ⟨rfl, h.symm⟩)
      · exact .inl ⟨by simp, by simp, _, h.symm⟩
  · cases h

theorem resume_cases (h : st.resume = some st') :
    st.run = .waiting ∧ proxyCont ∈ st.e.ready ∧ st'.run = .returned ∧ st'.f = st.f ∧
      st'.e.ready = st.e.ready.erase proxyCont := by
  unfold resume at h
  split at h
  · next hw =>
    cases h
    exact ⟨hw.1, hw.2, rfl, rfl, rfl⟩
  · cases h

/-! ### The signal is not missed -/

/-- As long as `TProxy::Run` copies or waits, the event is signalled exactly when the coroutine of
`f` has ended; while it waits, only the signal or a cancellation makes it ready. -/
structure Synchronized (st : TProxyState) : Prop where
  signalled : st.run = .copying ∨ st.run = .waiting → (st.event.s = true ↔ st.ForwardEnded)
  woken : st.run = .waiting → proxyCont ∈ st.e.ready → st.ForwardEnded ∨ proxyCont ∈ st.e.cancelled
  nodup : st.e.ready.Nodup

theorem nodup_schedule {ready : List Nat} (h : ready.Nodup) (c : Nat) :
    (ready.erase c ++ [c]).Nodup := by
  rw [List.nodup_append_comm, List.singleton_append, List.nodup_cons]
  exact ⟨h.not_mem_erase, h.erase c⟩

theorem Synchronized.forward (hI : st.Synchronized) {call : TWorkerCall}
    (h : st.forward call = some st') : st'.Synchronized := by
  rcases forward_cases h with ⟨hne, hrun, hf, hev, he⟩ | ⟨-, hrun, hf, hev, hcan, hready⟩
  · have hne' : ¬st'.ForwardEnded := by
      rintro ⟨ok, hok⟩
      simp [hok] at hf
    refine ⟨fun hr => ?_, fun hw hr => ?_, he ▸ hI.nodup⟩
    · rw [hev]
      rw [hrun] at hr
      exact (hI.signalled hr).trans (iff_of_false hne hne')
    · rw [he] at hr ⊢
      rw [hrun] at hw
      exact .inr ((hI.woken hw hr).resolve_left hne)
  · refine ⟨fun _ => iff_of_true (by rw [hev]) hf, fun _ _ => .inl hf, ?_⟩
    rcases hready with hready | ⟨c, hready⟩
    · exact hready ▸ hI.nodup
    · exact hready ▸ nodup_schedule hI.nodup c

theorem Synchronized.wait (hI : st.Synchronized) (hrun : st.run = .copying) :
    st.wait.Synchronized := by
  rcases st.wait_cases with ⟨-, hw⟩ | ⟨hs, -, hf, hr, hev, hcan, hready⟩
  · rw [hw]
    exact ⟨by simp, by simp, hI.nodup⟩
  · refine ⟨fun _ => ?_, fun _ hmem => ?_, hready ▸ hI.nodup.erase _⟩
    · rw [hev]
      unfold ForwardEnded
      rw [hf]
      exact hI.signalled (.inl hrun)
    · rw [hready] at hmem
      exact absurd hmem hI.nodup.not_mem_erase

theorem Synchronized.step (hI : st.Synchronized) {ev : TProxyEvent}
    (h : system.step st ev = some st') : st'.Synchronized := by
  cases ev with
  | forward call => exact hI.forward h
  | back call =>
    obtain ⟨hrun, ⟨-, -, t, rfl⟩ | ⟨-, rfl⟩ | ⟨-, rfl⟩⟩ := back_cases h
    · exact ⟨hI.signalled, hI.woken, hI.nodup⟩
    · exact ⟨by simp, by simp, hI.nodup⟩
    · exact Synchronized.wait ⟨hI.signalled, hI.woken, hI.nodup⟩ hrun
  | resume =>
    obtain ⟨-, -, hrun, -, hready⟩ := resume_cases h
    exact ⟨by simp [hrun], by simp [hrun], hready ▸ hI.nodup.erase _⟩
  | cancel c =>
    cases h
    obtain ⟨hc, hsub, hready⟩ := TContExecutor.cancel_cases { st.e with current := otherCont } c
    refine ⟨hI.signalled, fun hw hmem => ?_, ?_⟩
    · rcases hready with hready | hready
      · rw [hready] at hmem
        exact (hI.woken hw hmem).imp_right (hsub ·)
      · rw [hready] at hmem
        rcases List.mem_append.1 hmem with hmem | hmem
        · exact (hI.woken hw (List.mem_of_mem_erase hmem)).imp_right (hsub ·)
        · rw [List.mem_singleton.1 hmem]
          exact .inr hc
    · rcases hready with hready | hready
      · exact hready ▸ hI.nodup
      · exact hready ▸ nodup_schedule hI.nodup c

/-! ### The join -/

/-- One step keeps the join exactly when it does not leave `TProxy::Run` too early. -/
theorem joined_step_iff (hI : st.Synchronized) (hP : st.Joined) {ev : TProxyEvent}
    (h : system.step st ev = some st') : st'.Joined ↔ st.LeavesLast ev := by
  rw [joined_iff] at hP ⊢
  cases ev with
  | forward call =>
    refine iff_of_true (fun hr => ?_) trivial
    rcases forward_cases h with ⟨hne, hrun, -⟩ | ⟨-, -, hf, -⟩
    · rw [hrun] at hr
      exact absurd (hP hr) hne
    · exact hf
  | back call =>
    obtain ⟨hrun, ⟨hthrew, hrecv, t, rfl⟩ | ⟨rfl, rfl⟩ | ⟨rfl, rfl⟩⟩ := back_cases h
    · refine iff_of_true (fun hr => by simp [hrun] at hr) ?_
      cases call with
      | threw => exact absurd rfl hthrew
      | send => trivial
      | recv data =>
        cases data with
        | false => exact absurd rfl hrecv
        | true => trivial
    · simp [LeavesLast, ForwardEnded]
    · show _ ↔ (proxyCont ∈ st.e.cancelled → st.ForwardEnded)
      rcases ({ st with t := .left true } : TProxyState).wait_cases with
        ⟨hwait, hw⟩ | ⟨-, hc, -, hr, -⟩
      · -- a signal means that the coroutine has ended, so only the cancelled case is left
        rw [hw]
        constructor
        · intro h _
          exact h (.inl rfl)
        · rintro h -
          rcases hwait with hs | hc
          · exact (hI.signalled (.inl hrun)).1 hs
          · exact h hc
      · exact iff_of_true (fun h => by simp [hr] at h) (fun h => absurd h hc)
  | resume =>
    obtain ⟨hrun, hready, hret, hf, -⟩ := resume_cases h
    show _ ↔ (proxyCont ∈ st.e.cancelled → st.ForwardEnded)
    unfold ForwardEnded
    rw [hret, hf]
    constructor
    · intro h _
      exact h (.inl rfl)
    · rintro h -
      exact (hI.woken hrun hready).elim id h
  | cancel c =>
    cases h
    exact iff_of_true hP trivial

end TProxyState

/-- Any run of the two coroutines, with calls that end or throw in any order: `TProxy::Run` is never
left while the coroutine of `f` can make a step, exactly when `t.Run` does not throw, and the
coroutine of `TProxy::Run` is not cancelled, before that coroutine has ended. -/
theorem proxy_joined_iff (evs : List TProxyEvent) (hrun : (TProxyState.system.run {} evs).isSome) :
    TProxyState.system.Always TProxyState.Joined {} evs ↔
      TProxyState.system.EachStep TProxyState.LeavesLast {} evs := by
  refine System.always_iff_eachStep (I := TProxyState.Synchronized) hrun ?_ ?_ ?_ ?_
  · intro st ev st' hI h
    exact hI.step h
  · intro st ev st' hI hP h
    exact TProxyState.joined_step_iff hI hP h
  · exact ⟨fun _ => by simp [TProxyState.ForwardEnded], by simp, by decide⟩
  · rintro (h | h) <;> cases h

/-- The backend closes first, and `TProxy::Run` waits for the rest of the request. -/
theorem proxy_joined_waiting :
    TProxyState.system.Always TProxyState.Joined {}
      [.forward (.recv true), .back (.recv false), .forward .send, .forward (.recv false),
        .resume] := by
  refine (proxy_joined_iff _ rfl).2 ?_
  refine (System.eachStep_cons rfl).2
    ⟨trivial, (System.eachStep_cons rfl).2 ⟨?_, (System.eachStep_cons rfl).2
    ⟨trivial, (System.eachStep_cons rfl).2
      ⟨trivial, (System.eachStep_cons rfl).2 ⟨?_, System.eachStep_nil⟩⟩⟩⟩⟩
  · intro h
    cases h
  · intro _
    exact ⟨true, rfl⟩

/-- The first `Recv` of `t.Run` throws. `TProxy::Run` is left at once, and the coroutine of `f` then
goes on to receive from the client. -/
theorem proxy_left_early :
    ¬TProxyState.system.Always TProxyState.Joined {} [.back .threw] ∧
    ∃ st, TProxyState.system.run {} [.back .threw, .forward (.recv true)] = some st ∧
      st.run = .threw ∧ st.f = .send := by
  constructor
  · intro h
    have h₁ := h.last rfl (.inr rfl) (.recv true)
    cases h₁
  · exact ⟨_, rfl, rfl, rfl⟩

end Balancer
