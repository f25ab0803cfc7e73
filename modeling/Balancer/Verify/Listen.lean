import Balancer.Util.Listen

/-!
# A listener whose `accept` fails

The listener switches only in `PollD`, which `AcceptD` calls when there is nothing to accept. Every
other error is reported and `accept` is called again at once, so the scheduler runs again exactly if
`accept` would block at some time (`listener_handsBack_iff`).
-/

namespace Balancer

open Runs

/-- A result with which the listener stops for now: `accept` would block, or the coroutine was
cancelled. -/
def Stops (r : TAccept4) : Prop := ∃ err, r = .error err ∧ (isBlocked err = true ∨ err = ECANCELED)

namespace TOneSocketListener

variable (cb : TListenCallBack) (accept : Nat → TAccept4)

theorem onAccept_cancelled (l : TOneSocketListener) : onAccept cb l (-ECANCELED) = .exit () l := by
  simp [onAccept, ECANCELED, ECONNABORTED]

/-- Every other result leads back to the head of the loop. -/
theorem onAccept_again (l : TOneSocketListener) {res : Int} (h : res ≠ -ECANCELED) :
    ∃ e, onAccept cb l res = .again { l with e } := by
  unfold onAccept
  split
  · split
    · split
      · next hc => exact absurd (by omega) h
      · exact ⟨_, rfl⟩
    · exact ⟨l.e, rfl⟩
  · exact ⟨_, rfl⟩

theorem run_returned {l : TOneSocketListener} (hd : l.done = false) {res : Int}
    (h : acceptD (accept l.calls) l.e = .returned res) :
    run cb accept l = onAccept cb { l with calls := l.calls + 1 } res := by
  rw [run, if_neg (by simp [hd]), h]

theorem run_stops {l : TOneSocketListener} (hd : l.done = false) (h : Stops (accept l.calls)) :
    ∀ l', run cb accept l ≠ .again l' := by
  obtain ⟨err, hr, hs⟩ := h
  by_cases hb : isBlocked err = true
  · by_cases hc : l.e.current ∈ l.e.cancelled
    · have ha : acceptD (accept l.calls) l.e = .returned (-ECANCELED) := by
        simp [hr, acceptD, hb, TContExecutor.executeEvent_cancelled hc]
      rw [run_returned cb accept hd ha, onAccept_cancelled]
      simp
    · have ha : ∃ e, acceptD (accept l.calls) l.e = .switched e :=
        ⟨_, by rw [hr, acceptD, if_pos hb, TContExecutor.executeEvent_switched hc]⟩
      obtain ⟨e, ha⟩ := ha
      rw [run, if_neg (by simp [hd]), ha]
      simp
  · have ha : acceptD (accept l.calls) l.e = .returned (-ECANCELED) := by
      rw [hr, acceptD, if_neg hb, hs.resolve_left hb]
    rw [run_returned cb accept hd ha, onAccept_cancelled]
    simp

theorem run_again {l : TOneSocketListener} (hd : l.done = false) (hs : ¬Stops (accept l.calls)) :
    ∃ e, run cb accept l = .again { l with calls := l.calls + 1, e } := by
  cases hr : accept l.calls with
  | ok fd =>
    have hc : (fd : Int) ≠ -ECANCELED := by unfold ECANCELED; omega
    rw [run_returned cb accept hd (show acceptD (accept l.calls) l.e =
      .returned fd by rw [hr]; rfl)]
    exact onAccept_again cb _ hc
  | error err =>
    have hb : ¬isBlocked err = true := fun hb => hs ⟨err, hr, .inl hb⟩
    have hc : -err ≠ -ECANCELED := fun hc => hs ⟨err, hr, .inr (by omega)⟩
    rw [run_returned cb accept hd (show acceptD (accept l.calls) l.e =
      .returned (-err) by simp [hr, acceptD, hb])]
    exact onAccept_again cb _ hc

/-- For any results of `accept` and any callbacks: the listener gives control back after finitely
many turns exactly if it was stopped, or one of the results to come is that `accept` would block (or
`ECANCELED`). -/
theorem listener_handsBack_iff (l : TOneSocketListener) :
    HandsBack (run cb accept) l ↔ l.done = true ∨ ∃ n, l.calls ≤ n ∧ Stops (accept n) := by
  cases hd : l.done with
  | true =>
    refine iff_of_true (handsBack_of_body fun l' h => ?_) (.inl rfl)
    rw [run, if_pos hd] at h
    cases h
  | false =>
    have hgo : ∀ l : TOneSocketListener, l.done = false → ¬Stops (accept l.calls) →
        ∃ l', run cb accept l = .again l' ∧ l'.calls = l.calls + 1 ∧ l'.done = false := by
      intro l hl hs
      obtain ⟨e, he⟩ := run_again cb accept hl hs
      exact ⟨_, he, rfl, hl⟩
    rw [handsBack_iff_exists (fun l => l.done = false) calls (fun n => Stops (accept n))
      (fun l hl => run_stops cb accept hl) hgo hd]
    simp

/-- If `accept` fails with `EMFILE` on every call, the loop comes back to its head in every turn. -/
theorem turns_emfile (c n : Nat) (e : TContExecutor) :
    turns (run ⟨fun _ e => e, id⟩ fun _ => .error EMFILE) n { calls := c, e } =
      .again { calls := c + n, e } := by
  induction n generalizing c with
  | zero => rfl
  | succ n ih =>
    have hturn : run ⟨fun _ e => e, id⟩ (fun _ => .error EMFILE) { calls := c, e } =
        .again { calls := c + 1, e } := rfl
    rw [turns_again hturn, ih, Nat.add_assoc, Nat.add_comm 1 n]

/-- `EMFILE` on every call, while the coroutine 1 is ready. -/
theorem listener_stuck_emfile :
    ¬HandsBack (run ⟨fun _ e => e, id⟩ fun _ => .error EMFILE)
      { e := { current := 0, ready := [1] } } := by
  rintro ⟨n, hn⟩
  exact hn _ (turns_emfile 0 n _)

end TOneSocketListener

end Balancer
