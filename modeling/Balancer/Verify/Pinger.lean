import Balancer.Modules.Balancer.Arbiter
import Balancer.Modules.Pinger.Module

/-!
# The listener and the pinger

Two properties of every run of the pinger with requests and shutdowns: when the listener is stopped,
and what is done with it once a shutdown has destroyed it. Both fail at steps of `Pinger` that act
on something that has changed since it was looked at, and hold in exactly the runs without such
steps.
-/

namespace Balancer

open Runs IReAskArbiter System

namespace TPinger

variable {α : Type} [IReAskArbiter α]

/-- `Wait` returns. -/
def passes (s : TPinger α) : Bool := s.signalled || s.cancelled

/-- The steps, by where `Pinger` stands. -/
inductive Moves (s : TPinger α) : TPingerEvent → TPinger α → Prop where
  | succ : Moves s .succ s.registerSucc
  | fail : Moves s .fail s.registerFail
  | shutDown : Moves s .shutDown s.shutDown
  | listenerDestroyed : s.destroying ≠ 0 → Moves s .listenerDestroyed
      { s with destroying := s.destroying - 1, listener := .null, destroyed := true }
  | abort : s.destroyed = true → Moves s .abort { s with cancelled := true }
  | waits {ping bound : Bool} : s.pos = .start ∨ s.pos = .waiting →
    Moves s (.resume ping bound) s.wait
  | stopping {ping bound : Bool} : s.pos = .stopping →
      Moves s (.resume ping bound) ({ s with listener := .stopped }.pingLoop bound)
  | sleeping {ping bound : Bool} : s.pos = .sleeping →
    Moves s (.resume ping bound) { s with pos := .pinging }
  | pinging {ping bound : Bool} : s.pos = .pinging →
      Moves s (.resume ping bound) ((s.registerPing ping).pingLoop bound)

theorem moves_of_step {s s' : TPinger α} {e : TPingerEvent} (hs : s.step e = some s') :
    s.pos ≠ .crashed ∧ Moves s e s' := by
  unfold step at hs
  split at hs
  · cases hs
  · next hpos =>
    refine ⟨hpos, ?_⟩
    cases e with
    | succ =>
      cases hs
      exact .succ
    | fail =>
      cases hs
      exact .fail
    | shutDown =>
      cases hs
      exact .shutDown
    | listenerDestroyed =>
      obtain ⟨hdestroying, hs⟩ := Option.ite_none_right_eq_some.1 hs
      cases hs
      exact .listenerDestroyed hdestroying
    | abort =>
      obtain ⟨hdestroyed, hs⟩ := Option.ite_none_right_eq_some.1 hs
      cases hs
      exact .abort hdestroyed
    | resume ping bound =>
      simp only [resume] at hs
      split at hs
      · next h => cases hs; exact .waits (.inl h)
      · next h =>
        obtain ⟨hpasses, hs⟩ := Option.ite_none_right_eq_some.1 hs
        cases hs
        rw [show s.woken = s.wait from (if_pos hpasses).symm]
        exact .waits (.inr h)
      · next h => cases hs; exact .stopping h
      · next h => cases hs; exact .sleeping h
      · next h => cases hs; exact .pinging h
      · cases hs
      · cases hs

/-! ### When the listener is stopped -/

/-- Every call of `StopListener` was made when the arbiter did not authorize. -/
def StopsAlarmed (s : TPinger α) : Prop := ∀ authorized ∈ s.stops, authorized = false

/-- The pinger does not act when the arbiter authorizes: not behind `Wait`, and no signal is left
when the listener has been started again. -/
def ActsAlarmed (s : TPinger α) : TPingerEvent → Prop
  | .resume ping bound =>
    match s.pos with
    | .start | .waiting =>
      s.listener ≠ .null → s.passes = true → authorize s.arbiter = false
    | .stopping => authorize s.arbiter = true → bound = true → s.passes = false
    | .pinging => s.listener ≠ .null →
        authorize (s.registerPing ping).arbiter = true → bound = true → s.passes = false
    | _ => True
  | _ => True

section Stops

variable {s : TPinger α} (h : s.StopsAlarmed)
include h

theorem stopsAlarmed_woken :
    s.woken.StopsAlarmed ↔ (s.listener ≠ .null → authorize s.arbiter = false) := by
  unfold woken
  split
  · next hnull => exact iff_of_true h fun hne => absurd hnull hne
  · next hne =>
    constructor
    · intro hstops _
      exact hstops _ (List.mem_append_right _ List.mem_cons_self)
    · intro hauth
      exact List.forall_mem_append.2 ⟨h, List.forall_mem_singleton.2 (hauth hne)⟩

theorem stopsAlarmed_wait : s.wait.StopsAlarmed ↔
    (s.listener ≠ .null → s.passes = true → authorize s.arbiter = false) := by
  unfold wait
  split
  · next hpasses =>
    rw [stopsAlarmed_woken h]
    exact ⟨fun hauth hne _ => hauth hne, fun hauth hne => hauth hne hpasses⟩
  · next hpasses => exact iff_of_true h fun _ hp => absurd hp hpasses

/-- Behind the loop of pings the arbiter authorizes, so that a signal that is left is acted upon
wrongly. -/
theorem stopsAlarmed_pingLoop (bound : Bool) : (s.pingLoop bound).StopsAlarmed ↔
    (s.listener ≠ .null → authorize s.arbiter = true → bound = true → s.passes = false) := by
  unfold pingLoop
  split
  · next hauth =>
    unfold startListener
    split
    · next hnull => exact iff_of_true h fun hne => absurd hnull hne
    · next hne =>
      split
      · next hbound =>
        rw [stopsAlarmed_wait (s := { s with listener := .started }) h]
        have hpasses : ({ s with listener := .started } : TPinger α).passes = s.passes := rfl
        rw [hpasses]
        constructor
        · intro hstops _ _ _
          refine Bool.eq_false_iff.2 fun hp => ?_
          rw [hauth] at hstops
          have hne : TListenerPtr.started ≠ .null := by decide
          cases hstops hne hp
        · intro hfresh _ hp
          rw [hfresh hne hauth hbound] at hp
          cases hp
      · next hbound => exact iff_of_true h fun _ _ hb => absurd hb hbound
  · next hauth => exact iff_of_true h fun _ ha => absurd ha hauth

theorem stopsAlarmed_step {s' : TPinger α} {e : TPingerEvent} (hs : Moves s e s') :
    s'.StopsAlarmed ↔ s.ActsAlarmed e := by
  cases hs with
  | succ | fail | listenerDestroyed | abort => exact iff_of_true h trivial
  | shutDown =>
    refine iff_of_true ?_ trivial
    unfold shutDown
    split <;> exact h
  | waits hpos =>
    rw [stopsAlarmed_wait h]
    rcases hpos with hpos | hpos <;> simp only [ActsAlarmed, hpos]
  | @stopping ping bound hpos =>
    have hne : TListenerPtr.stopped ≠ .null := by decide
    rw [stopsAlarmed_pingLoop (s := { s with listener := .stopped }) h]
    simp only [ActsAlarmed, hpos]
    exact ⟨fun hfresh => hfresh hne, fun hfresh _ => hfresh⟩
  | sleeping hpos =>
    simp only [ActsAlarmed, hpos]
    exact iff_of_true h trivial
  | @pinging ping bound hpos =>
    simp only [ActsAlarmed, hpos]
    exact stopsAlarmed_pingLoop (s := s.registerPing ping) h bound

end Stops

/-! ### Between the signal and the turn of the pinger -/

def isTurn : TPingerEvent → Bool
  | .resume .. => true
  | _ => false

/-- What the requests that end register. -/
def registerEnds (a : α) : List TPingerEvent → α
  | [] => a
  | .succ :: es => registerEnds (IReAskArbiter.registerSucc a) es
  | .fail :: es => registerEnds (IReAskArbiter.registerFail a) es
  | _ :: es => registerEnds a es

/-- The last turn of the pinger was before a failure that alarmed the arbiter and so was
signalled. -/
structure Signalled (a : α) (pre between : List TPingerEvent) (s : TPinger α) : Prop where
  events : ∃ before, pre = before ++ .fail :: between ∧
    system.run (init a) (before ++ [.fail]) = some s
  turns : ∀ e ∈ between, isTurn e = false
  alarmed : authorize s.arbiter = false

/-- When the pinger gets its turn in `Wait`, the requests that have ended since a signal have not
calmed the arbiter, nor does it authorize when the coroutine was cancelled; and no signal is left
when the listener has been started again. -/
def FreshSignal (a : α) (pre : List TPingerEvent) (s : TPinger α) : TPingerEvent → Prop
  | .resume ping bound =>
    match s.pos with
    | .start | .waiting => s.listener ≠ .null →
        (∀ between s₁, Signalled a pre between s₁ →
          authorize (registerEnds s₁.arbiter between) = false) ∧
        (s.cancelled = true → authorize s.arbiter = false)
    | .stopping => authorize s.arbiter = true → bound = true → s.passes = false
    | .pinging => s.listener ≠ .null →
        authorize (s.registerPing ping).arbiter = true → bound = true → s.passes = false
    | _ => True
  | _ => True

omit [IReAskArbiter α] in
theorem shutDown_fields (s : TPinger α) : s.shutDown.arbiter = s.arbiter ∧
    s.shutDown.signalled = s.signalled ∧ s.shutDown.pos = s.pos := by
  unfold shutDown
  split <;> exact ⟨rfl, rfl, rfl⟩

/-- Without a turn of the pinger a signal stays, and the arbiter changes by the ends of requests. -/
theorem run_between {s s' : TPinger α} {es : List TPingerEvent} (h : ∀ e ∈ es, isTurn e = false)
    (hrun : system.run s es = some s') :
    s'.arbiter = registerEnds s.arbiter es ∧ (s.signalled = true → s'.signalled = true) := by
  induction es generalizing s with
  | nil =>
    cases hrun
    exact ⟨rfl, id⟩
  | cons e es ih =>
    obtain ⟨s₁, hs, -⟩ := System.run_cons_isSome (Option.isSome_iff_exists.2 ⟨s', hrun⟩)
    rw [System.run_cons hs] at hrun
    obtain ⟨harb, hsig⟩ := ih (List.forall_mem_cons.1 h).2 hrun
    have he := h e List.mem_cons_self
    rw [harb]
    cases (moves_of_step hs).2 with
    | succ => exact ⟨rfl, hsig⟩
    | fail => exact ⟨rfl, fun h => hsig (by simp [registerFail, h])⟩
    | shutDown =>
      obtain ⟨harb', hsig', -⟩ := shutDown_fields s
      exact ⟨by rw [harb']; rfl, fun h => hsig (hsig'.trans h)⟩
    | listenerDestroyed | abort => exact ⟨rfl, hsig⟩
    | _ => cases he

/-- The pinger goes to wait without a signal. -/
def RestsUnsignalled (s : TPinger α) : Prop :=
  s.pos = .start ∨ s.pos = .waiting → s.signalled = false

theorem wait_restsUnsignalled (s : TPinger α) : s.wait.RestsUnsignalled := by
  unfold wait
  split
  · unfold woken
    split <;> simp [RestsUnsignalled]
  · next h =>
    intro _
    simpa using (Bool.or_eq_false_iff.1 (Bool.eq_false_iff.2 h)).1

theorem pingLoop_restsUnsignalled (s : TPinger α) (bound : Bool) :
    (s.pingLoop bound).RestsUnsignalled := by
  unfold pingLoop startListener
  split
  · split
    · simp [RestsUnsignalled]
    · split
      · exact wait_restsUnsignalled _
      · simp [RestsUnsignalled]
  · simp [RestsUnsignalled]

theorem Signalled.concat {a : α} {pre between : List TPingerEvent} {s : TPinger α}
    {e : TPingerEvent} (h : Signalled a pre between s) (he : isTurn e = false) :
    Signalled a (pre ++ [e]) (between ++ [e]) s := by
  obtain ⟨⟨before, rfl, hrun⟩, hturns, halarmed⟩ := h
  exact ⟨⟨before, by simp, hrun⟩,
    List.forall_mem_append.2 ⟨hturns, List.forall_mem_singleton.2 he⟩, halarmed⟩

/-- A signal that the pinger finds came after its last turn. -/
theorem exists_signalled {a : α} {pre : List TPingerEvent} {s : TPinger α}
    (hrun : system.run (init a) pre = some s) (hpos : s.pos = .start ∨ s.pos = .waiting)
    (hsig : s.signalled = true) : ∃ between s₁, Signalled a pre between s₁ := by
  refine run_history (H := fun pre s => s.pos = .start ∨ s.pos = .waiting →
    s.signalled = true → ∃ between s₁, Signalled a pre between s₁) (fun _ h => by
      cases h) ?_ hrun hpos hsig
  intro pre s e s' hpre ih hs hpos hsig
  have hrests : s'.RestsUnsignalled → ∃ between s₁, Signalled a (pre ++ [e]) between s₁ := by
    intro h
    rw [h hpos] at hsig
    cases hsig
  have hstays : s'.pos = s.pos → s.signalled = true → isTurn e = false →
      ∃ between s₁, Signalled a (pre ++ [e]) between s₁ := by
    intro hpos' hsig' he
    obtain ⟨between, s₁, h⟩ := ih (hpos' ▸ hpos) hsig'
    exact ⟨_, s₁, h.concat he⟩
  cases (moves_of_step hs).2 with
  | succ => exact hstays rfl hsig rfl
  | fail =>
    cases hsig' : s.signalled with
    | true => exact hstays rfl hsig' rfl
    | false =>
      refine ⟨[], s.registerFail, ⟨pre, rfl, ?_⟩, by simp, ?_⟩
      · rw [run_concat, hpre]
        exact hs
      · simpa [registerFail, hsig'] using hsig
  | shutDown =>
    obtain ⟨-, hsig', hpos'⟩ := shutDown_fields s
    exact hstays hpos' (hsig' ▸ hsig) rfl
  | listenerDestroyed | abort => exact hstays rfl hsig rfl
  | waits => exact hrests (wait_restsUnsignalled s)
  | @stopping _ bound =>
    exact hrests (pingLoop_restsUnsignalled { s with listener := .stopped } bound)
  | sleeping => exact hrests fun h => by simp at h
  | @pinging ping bound => exact hrests (pingLoop_restsUnsignalled (s.registerPing ping) bound)

theorem Signalled.run {a : α} {pre between : List TPingerEvent} {s s₁ : TPinger α}
    (h : Signalled a pre between s₁) (hrun : system.run (init a) pre = some s) :
    s.arbiter = registerEnds s₁.arbiter between ∧ s.signalled = true := by
  obtain ⟨⟨before, rfl, hs₁⟩, hturns, halarmed⟩ := h
  rw [List.append_cons, System.run_append, hs₁] at hrun
  obtain ⟨harb, hsig⟩ := run_between hturns hrun
  refine ⟨harb, hsig ?_⟩
  rw [System.run_concat] at hs₁
  obtain ⟨s₀, -, hs₀⟩ := Option.bind_eq_some_iff.1 hs₁
  have hfail : s₀.step .fail = some s₁ := hs₀
  cases (moves_of_step hfail).2
  have : (!IReAskArbiter.authorize (IReAskArbiter.registerFail s₀.arbiter)) = true := by
    rw [Bool.not_eq_true']
    exact halarmed
  simp [registerFail, this]

theorem freshSignal_iff {a : α} {pre : List TPingerEvent} {s : TPinger α}
    (hrun : system.run (init a) pre = some s) (e : TPingerEvent) :
    s.ActsAlarmed e ↔ FreshSignal a pre s e := by
  have hwait : s.pos = .start ∨ s.pos = .waiting →
      ((s.passes = true → authorize s.arbiter = false) ↔
        (∀ between s₁, Signalled a pre between s₁ →
          authorize (registerEnds s₁.arbiter between) = false) ∧
        (s.cancelled = true → authorize s.arbiter = false)) := by
    intro hpos
    constructor
    · intro h
      refine ⟨fun between s₁ hs₁ => ?_, fun hc => h (by simp [passes, hc])⟩
      obtain ⟨harb, hsig⟩ := hs₁.run hrun
      rw [← harb]
      exact h (by simp [passes, hsig])
    · rintro ⟨hbetween, hcancelled⟩ hpasses
      rw [passes, Bool.or_eq_true] at hpasses
      rcases hpasses with hsig | hc
      · obtain ⟨between, s₁, hs₁⟩ := exists_signalled hrun hpos hsig
        rw [(hs₁.run hrun).1]
        exact hbetween between s₁ hs₁
      · exact hcancelled hc
  cases e with
  | resume ping bound =>
    cases hpos : s.pos <;> simp only [ActsAlarmed, FreshSignal, hpos]
    · exact imp_congr_right fun _ => hwait (.inl hpos)
    · exact imp_congr_right fun _ => hwait (.inr hpos)
  | _ => exact Iff.rfl

/-- The listener is stopped only when the arbiter does not authorize, exactly if every signal is
fresh when it is acted upon. -/
theorem stops_alarmed_iff (a : α) (es : List TPingerEvent)
    (hrun : (system.run (init a) es).isSome) : system.Always StopsAlarmed (init a) es ↔
      ∀ pre e s, pre ++ [e] <+: es → system.run (init a) pre = some s → FreshSignal a pre s e := by
  have hsteps : system.Always StopsAlarmed (init a) es ↔ system.EachStep ActsAlarmed (init a) es :=
    always_iff_eachStep (I := fun _ => True) hrun (fun _ _ _ _ _ => trivial)
      (fun _ _ _ _ h hs => stopsAlarmed_step h (moves_of_step hs).2) trivial nofun
  rw [hsteps]
  exact forall₅_congr fun pre e s _ hs => freshSignal_iff hs e

/-- An arbiter that one failure alarms. -/
def strictArbiter : TAdditiveArbiter := { succSummand := 1 }

theorem stops_alarmed_once :
    (system.run (init strictArbiter) [.resume false true, .fail, .resume false true]).map
      (fun s => s.stops) = some [false] ∧
    system.Always StopsAlarmed (init strictArbiter)
      [.resume false true, .fail, .resume false true] := by
  have hsteps (h : system.EachStep ActsAlarmed (init strictArbiter)
      [.resume false true, .fail, .resume false true]) : _ :=
    (stops_alarmed_iff _ _ (by decide +kernel)).2 fun pre e s hpre hs =>
      (freshSignal_iff hs e).1 (h pre e s hpre hs)
  refine ⟨by decide +kernel, hsteps ?_⟩
  have hwait : system.step (init strictArbiter) (.resume false true) =
      some { arbiter := strictArbiter, pos := .waiting } := by decide +kernel
  have hfail : system.step { arbiter := strictArbiter, pos := .waiting } .fail =
      some { arbiter := strictArbiter.registerFail, pos := .waiting, signalled := true } := by
        decide +kernel
  have hwoken : system.step
      { arbiter := strictArbiter.registerFail, pos := .waiting, signalled := true }
      (.resume false true) =
      some { arbiter := strictArbiter.registerFail, pos := .stopping, stops := [false] } := by
        decide +kernel
  refine (eachStep_cons hwait).2 ⟨fun _ hpasses => ?_, (eachStep_cons hfail).2 ⟨trivial,
    (eachStep_cons hwoken).2 ⟨fun _ _ => by decide +kernel, eachStep_nil⟩⟩⟩
  cases hpasses

/-- An arbiter that one failure alarms, and that two successes calm. -/
def narrowArbiter : TWatermarkArbiter where
  loWatermark := 99 / 10000
  hiWatermark := 99 / 10000
  lo_le_hi := le_refl _

/-- A request fails during the pings. Its signal is left when the listener has been started. -/
def staleRun : List TPingerEvent :=
  [.resume false true, .fail, .resume false true, .resume false true, .fail, .resume false true,
    .resume true true, .resume false true, .resume true true]

/-- Two requests succeed between the signal and the turn of the pinger. -/
def lateRun : List TPingerEvent := [.resume false true, .fail, .succ, .succ, .resume false true]

theorem stops_authorized :
    (system.run (init strictArbiter) staleRun).map (fun s => (s.stops, s.pos)) =
      some ([false, true], .stopping) ∧
    (system.run (init narrowArbiter) lateRun).map (fun s => (s.stops, s.pos)) =
      some ([true], .stopping) ∧
    ¬system.Always StopsAlarmed (init strictArbiter) staleRun ∧
    ¬system.Always StopsAlarmed (init narrowArbiter) lateRun := by
  have hstale : (system.run (init strictArbiter) staleRun).map (fun s => (s.stops, s.pos)) =
      some ([false, true], .stopping) := by decide +kernel
  have hlate : (system.run (init narrowArbiter) lateRun).map (fun s => (s.stops, s.pos)) =
      some ([true], .stopping) := by decide +kernel
  refine ⟨hstale, hlate, fun h => ?_, fun h => ?_⟩
  · obtain ⟨s, hrun, hs⟩ := Option.map_eq_some_iff.1 hstale
    have hstops := h.last hrun true (by rw [(Prod.mk.inj hs).1]; decide)
    cases hstops
  · obtain ⟨s, hrun, hs⟩ := Option.map_eq_some_iff.1 hlate
    have hstops := h.last hrun true (by rw [(Prod.mk.inj hs).1]; decide)
    cases hstops

/-! ### What is done with a destroyed listener -/

/-- The pinger has not used a null pointer, and no listener comes back. -/
def ListenerGone (s : TPinger α) : Prop :=
  s.pos ≠ .crashed ∧ (s.destroyed = true → s.listener = .null)

/-- Once the listener is destroyed, the pinger is not inside of `StopListener`, and no ping of it
makes the arbiter authorize. -/
def OutOfTheWay (s : TPinger α) : TPingerEvent → Prop
  | .resume ping _ => s.destroyed = true → s.pos ≠ .stopping ∧
      (s.pos = .pinging → authorize (s.registerPing ping).arbiter = false)
  | _ => True

/-- `Listener_` is null only after a shutdown. -/
def HasListener (s : TPinger α) : Prop := s.destroyed = false → s.listener ≠ .null

section Fields

variable (s : TPinger α)

theorem wait_fields : s.wait.listener = s.listener ∧ s.wait.destroyed = s.destroyed ∧
    s.wait.pos ≠ .crashed := by
  unfold wait woken
  split
  · split <;> exact ⟨rfl, rfl, by simp⟩
  · exact ⟨rfl, rfl, by simp⟩

variable {s}

theorem pingLoop_fields (bound : Bool) (h : s.listener ≠ .null) :
    (s.pingLoop bound).listener ≠ .null ∧ (s.pingLoop bound).destroyed = s.destroyed ∧
      (s.pingLoop bound).pos ≠ .crashed := by
  unfold pingLoop startListener
  split
  · split
    · next hnull => exact absurd hnull h
    · split
      · obtain ⟨hl, hd, hp⟩ := wait_fields { s with listener := .started }
        exact ⟨by rw [hl]; simp, hd, hp⟩
      · exact ⟨h, rfl, by simp⟩
  · exact ⟨h, rfl, by simp⟩

theorem pingLoop_null (bound : Bool) (h : s.listener = .null) :
    (s.pingLoop bound).listener = .null ∧ (s.pingLoop bound).destroyed = s.destroyed ∧
      ((s.pingLoop bound).pos ≠ .crashed ↔ authorize s.arbiter = false) := by
  unfold pingLoop startListener
  split
  · next hauth => simp [h, hauth]
  · next hauth => simp [h, hauth]

end Fields

theorem hasListener_step {s s' : TPinger α} {e : TPingerEvent} (h : s.HasListener)
    (hs : Moves s e s') : s'.HasListener := by
  cases hs with
  | succ | fail | sleeping | abort => exact h
  | listenerDestroyed => exact fun hd => absurd hd (by simp)
  | shutDown =>
    unfold shutDown
    split
    · exact h
    · exact fun hd => absurd hd (by simp)
  | waits =>
    obtain ⟨hl, hd, -⟩ := wait_fields s
    intro hfalse
    rw [hl]
    exact h (hd ▸ hfalse)
  | @stopping _ bound =>
    exact fun _ => (pingLoop_fields (s := { s with listener := .stopped }) bound (by simp)).1
  | @pinging ping bound =>
    intro hfalse
    by_cases hnull : s.listener = .null
    · obtain ⟨-, hd, -⟩ := pingLoop_null (s := s.registerPing ping) bound hnull
      exact absurd hnull (h (hd ▸ hfalse))
    · exact (pingLoop_fields (s := s.registerPing ping) bound hnull).1

theorem listenerGone_step {s s' : TPinger α} {e : TPingerEvent} (hinv : s.HasListener)
    (h : s.ListenerGone) (hs : Moves s e s') : s'.ListenerGone ↔ s.OutOfTheWay e := by
  cases hs with
  | succ | fail | abort => exact iff_of_true h trivial
  | listenerDestroyed => exact iff_of_true ⟨h.1, fun _ => rfl⟩ trivial
  | shutDown =>
    refine iff_of_true ?_ trivial
    unfold shutDown
    split
    · exact h
    · exact ⟨h.1, fun _ => rfl⟩
  | waits hpos =>
    obtain ⟨hl, hd, hp⟩ := wait_fields s
    refine iff_of_true ⟨hp, ?_⟩ fun _ => by rcases hpos with hpos | hpos <;> simp [hpos]
    rw [hl, hd]
    exact h.2
  | @stopping ping bound hpos =>
    -- the new listener is there
    obtain ⟨hl, hd, hp⟩ := pingLoop_fields (s := { s with listener := .stopped }) bound (by simp)
    constructor
    · intro hgone hdestroyed
      exact absurd (hgone.2 (hd.trans hdestroyed)) hl
    · intro hout
      refine ⟨hp, fun hdestroyed => ?_⟩
      exact absurd hpos (hout (hd.symm.trans hdestroyed)).1
  | sleeping hpos => exact iff_of_true ⟨by simp, h.2⟩ fun _ => by simp [hpos]
  | @pinging ping bound hpos =>
    by_cases hnull : s.listener = .null
    · obtain ⟨hl, hd, hp⟩ := pingLoop_null (s := s.registerPing ping) bound hnull
      have hdestroyed : s.destroyed = true := by
        by_contra hfalse
        exact hinv (Bool.eq_false_iff.2 hfalse) hnull
      simp only [ListenerGone, OutOfTheWay, hp, hl, hpos, hdestroyed]
      simp
    · obtain ⟨hl, hd, hp⟩ := pingLoop_fields (s := s.registerPing ping) bound hnull
      have hdestroyed : s.destroyed = false := Bool.eq_false_iff.2 fun htrue => hnull (h.2 htrue)
      refine iff_of_true ⟨hp, fun htrue => ?_⟩ fun htrue => ?_
      · rw [hd] at htrue
        exact absurd (htrue.symm.trans hdestroyed) (by decide)
      · rw [hdestroyed] at htrue
        cases htrue

/-- A shutdown has no listener left behind it if the pinger is out of the way. -/
theorem listener_gone_iff (a : α) (es : List TPingerEvent)
    (hrun : (system.run (init a) es).isSome) :
    system.Always ListenerGone (init a) es ↔ system.EachStep OutOfTheWay (init a) es := by
  refine always_iff_eachStep (I := HasListener) hrun ?_ ?_ ?_ ?_
  · intro s e s' hinv hs
    exact hasListener_step hinv (moves_of_step hs).2
  · intro s e s' hinv h hs
    exact listenerGone_step hinv h (moves_of_step hs).2
  · exact fun _ => by simp [init]
  · exact ⟨by simp [init], fun h => absurd h (by simp [init])⟩

/-- A shutdown while the pinger waits, and its end. -/
theorem listener_gone_waiting :
    (system.run (init strictArbiter) [.resume false true, .shutDown, .listenerDestroyed, .abort,
      .resume false true]).map (fun s => (s.listener, s.pos)) = some (.null, .ended) ∧
    system.Always ListenerGone (init strictArbiter) [.resume false true, .shutDown,
      .listenerDestroyed, .abort, .resume false true] := by
  refine ⟨by decide +kernel, (listener_gone_iff _ _ (by decide +kernel)).2 ?_⟩
  have hwait : system.step (init strictArbiter) (.resume false true) =
      some { arbiter := strictArbiter, pos := .waiting } := by decide +kernel
  refine (eachStep_cons hwait).2 ⟨fun h => ?_, (eachStep_cons rfl).2 ⟨trivial,
    (eachStep_cons rfl).2 ⟨trivial, (eachStep_cons rfl).2 ⟨trivial,
      (eachStep_cons rfl).2 ⟨fun _ => ⟨by decide, fun h => ?_⟩, eachStep_nil⟩⟩⟩⟩⟩
  · cases h
  · cases h

/-- A shutdown while the pinger pings, and one while it stops the listener. -/
def pingingRun : List TPingerEvent :=
  [.resume false true, .fail, .resume false true, .resume false true, .shutDown, .resume false true,
    .resume true true]

def stoppingRun : List TPingerEvent :=
  [.resume false true, .fail, .resume false true, .shutDown, .listenerDestroyed, .resume false true]

theorem listener_not_gone :
    (system.run (init strictArbiter) pingingRun).map (fun s => (s.destroyed, s.listener, s.pos)) =
      some (true, .null, .crashed) ∧
    (system.run (init strictArbiter) stoppingRun).map (fun s => (s.destroyed, s.listener, s.pos)) =
      some (true, .stopped, .sleeping) ∧
    ¬system.Always ListenerGone (init strictArbiter) pingingRun ∧
    ¬system.Always ListenerGone (init strictArbiter) stoppingRun := by
  have hpinging : (system.run (init strictArbiter) pingingRun).map
      (fun s => (s.destroyed, s.listener, s.pos)) =
      some (true, .null, .crashed) := by decide +kernel
  have hstopping : (system.run (init strictArbiter) stoppingRun).map
      (fun s => (s.destroyed, s.listener, s.pos)) =
      some (true, .stopped, .sleeping) := by decide +kernel
  refine ⟨hpinging, hstopping, fun h => ?_, fun h => ?_⟩
  · obtain ⟨s, hrun, hs⟩ := Option.map_eq_some_iff.1 hpinging
    obtain ⟨-, hs⟩ := Prod.mk.inj hs
    exact (h.last hrun).1 (Prod.mk.inj hs).2
  · obtain ⟨s, hrun, hs⟩ := Option.map_eq_some_iff.1 hstopping
    obtain ⟨hdestroyed, hs⟩ := Prod.mk.inj hs
    have hnull := (h.last hrun).2 hdestroyed
    rw [(Prod.mk.inj hs).1] at hnull
    cases hnull

end TPinger

end Balancer
