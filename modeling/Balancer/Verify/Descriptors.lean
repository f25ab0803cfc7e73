import Balancer.Verify.Connections

/-!
# Descriptors that are used again

An event of the poller belongs to the connection that has its descriptor, as long as that connection
is open (`Consistent`). `Cancel` closes a descriptor without a look at the poller, so the events
that the connection has there stay in the list of the number, and the next connection with this
number finds them (`descriptors_separate_iff`).
-/

namespace Balancer

open Runs Objects TContPoller System
open Option (ite_none_right_eq_some map_eq_some_iff)

namespace TMainTask

variable {st st' : TMainTask} {c : Nat} {conn : TConnection} {ev : TConnectionEvent}

/-! ### The events of a connection -/

structure ConnOK (poller : TContPoller (Nat × TPollKind)) (c : Nat) (conn : TConnection) :
    Prop where
  valid : conn.fd ≠ INVALID_SOCKET
  out : ∀ fd, conn.out = some fd → conn.ended = false ∧ (fd = conn.fd ∨ fd = INVALID_SOCKET)
  polling : conn.polling = true → conn.ended = false ∧ fdEvent c conn.fd ∈ poller.list conn.fd
  closed : conn.closed = true ↔ 0 < conn.cancelled ∨ conn.ended = true

/-- The event is the `TSocketOut` or the `TFdEvent` that the connection has. -/
def Owns (c : Nat) (conn : TConnection) (ev : TConnectionEvent) : Prop :=
  (∃ fd, ev = socketOut c fd ∧ conn.out = some fd) ∨ ev = fdEvent c conn.fd ∧ conn.polling = true

/-- Every event in the poller is one of a connection, and open connections have different
descriptors. -/
structure Consistent (st : TMainTask) : Prop where
  conn : ∀ c conn, st.conns[c]? = some conn → ConnOK st.poller c conn
  distinct : ∀ (c c' : Nat) (conn conn' : TConnection), st.conns[c]? = some conn →
    st.conns[c']? = some conn' → conn.closed = false → conn'.closed = false → conn.fd = conn'.fd →
    c = c'
  owner : ∀ (fd : Nat) (ev : TConnectionEvent), ev ∈ st.poller.list fd →
    ∃ conn, st.conns[ev.owner.1]? = some conn ∧ Owns ev.owner.1 conn ev

theorem ConnOK.not_cancelled {poller : TContPoller (Nat × TPollKind)} (H : ConnOK poller c conn)
    (h : conn.closed = false) : conn.cancelled = 0 := by
  have hc := H.closed
  rw [h] at hc
  simp only [Bool.false_eq_true, false_iff, not_or, Nat.not_lt, Nat.le_zero] at hc
  exact hc.1

/-- A step of one connection, which changes its own events only. -/
theorem Consistent.modify (H : st.Consistent) (hc : st.conns[c]? = some conn)
    {f : TConnection → TConnection} (hconns : st'.conns = st.conns.modify c f)
    (hfd : (f conn).fd = conn.fd) (hclosed : conn.closed = true → (f conn).closed = true)
    (hok : ConnOK st'.poller c (f conn))
    (hkeep : ∀ (fd : Nat) (ev : TConnectionEvent), ev.owner.1 ≠ c →
      (ev ∈ st'.poller.list fd ↔ ev ∈ st.poller.list fd))
    (hown : ∀ (fd : Nat) (ev : TConnectionEvent), ev ∈ st'.poller.list fd → ev.owner.1 = c →
      Owns c (f conn) ev) : st'.Consistent := by
  have hold : ∀ (c' : Nat) (conn' : TConnection), st'.conns[c']? = some conn' →
      ∃ conn₀, st.conns[c']? = some conn₀ ∧ conn'.fd = conn₀.fd ∧
        (conn'.closed = false → conn₀.closed = false) ∧
        (c' = c ∧ conn' = f conn ∨ c' ≠ c ∧ conn' = conn₀) := by
    intro c' conn' hc'
    rw [hconns] at hc'
    rcases getElem?_modify_cases hc' with ⟨rfl, conn₀, hc₀, rfl⟩ | ⟨hne, hc₀⟩
    · rw [hc] at hc₀
      cases hc₀
      refine ⟨conn, hc, hfd, ?_, .inl ⟨rfl, rfl⟩⟩
      cases hcl : conn.closed with
      | false => exact fun _ => rfl
      | true => simp [hclosed hcl]
    · exact ⟨conn', hc₀, rfl, id, .inr ⟨hne, rfl⟩⟩
  refine ⟨?_, ?_, ?_⟩
  · intro c' conn' hc'
    obtain ⟨conn₀, hc₀, -, -, ⟨rfl, rfl⟩ | ⟨hne, rfl⟩⟩ := hold c' conn' hc'
    · exact hok
    · have h₀ := H.conn c' conn' hc₀
      refine ⟨h₀.valid, h₀.out, fun hp => ⟨(h₀.polling hp).1, ?_⟩, h₀.closed⟩
      exact (hkeep _ _ hne).2 (h₀.polling hp).2
  · intro c₁ c₂ conn₁ conn₂ h₁ h₂ hcl₁ hcl₂ hfd'
    obtain ⟨conn₁', h₁', hfd₁, hcl₁', -⟩ := hold c₁ conn₁ h₁
    obtain ⟨conn₂', h₂', hfd₂, hcl₂', -⟩ := hold c₂ conn₂ h₂
    exact H.distinct c₁ c₂ conn₁' conn₂' h₁' h₂' (hcl₁' hcl₁) (hcl₂' hcl₂) (hfd₁ ▸ hfd₂ ▸ hfd')
  · intro fd ev hev
    by_cases hevc : ev.owner.1 = c
    · refine ⟨f conn, ?_, hevc ▸ hown fd ev hev hevc⟩
      rw [hconns, hevc]
      exact getElem?_modify_self hc
    · obtain ⟨conn', hc', hown'⟩ := H.owner fd ev ((hkeep fd ev hevc).1 hev)
      refine ⟨conn', ?_, hown'⟩
      rw [hconns, getElem?_modify_ne hevc]
      exact hc'

theorem ne_of_owner {ev' : TConnectionEvent} (h : ev.owner.1 ≠ ev'.owner.1) : ev ≠ ev' := by
  rintro rfl
  exact h rfl

theorem Owns.of_owner (H : st.Consistent) (hc : st.conns[c]? = some conn) {fd : Nat}
    (hev : ev ∈ st.poller.list fd) (howner : ev.owner.1 = c) : Owns c conn ev := by
  obtain ⟨conn', hc', hown⟩ := H.owner fd ev hev
  rw [howner, hc] at hc'
  cases hc'
  exact howner ▸ hown

/-- The connection puts an event into the poller. -/
theorem Consistent.schedule (H : st.Consistent) (hc : st.conns[c]? = some conn)
    {f : TConnection → TConnection} {e : TConnectionEvent}
    (hconns : st'.conns = st.conns.modify c f) (hpoller : st'.poller = st.poller.schedule e)
    (he : e.owner.1 = c) (hfd : (f conn).fd = conn.fd)
    (hclosed : conn.closed = true → (f conn).closed = true)
    (hok : ConnOK (st.poller.schedule e) c (f conn)) (hnew : Owns c (f conn) e)
    (hold : ∀ ev, Owns c conn ev → Owns c (f conn) ev) : st'.Consistent := by
  refine H.modify hc hconns hfd hclosed (hpoller ▸ hok) ?_ ?_
  · intro fd ev hne
    rw [hpoller]
    exact mem_schedule_ne (ne_of_owner (he.symm ▸ hne))
  · intro fd ev hev howner
    rw [hpoller] at hev
    rcases mem_schedule.1 hev with ⟨-, rfl⟩ | hev
    · exact hnew
    · exact hold ev (Owns.of_owner H hc hev howner)

/-- The connection takes an event out of the poller. -/
theorem Consistent.remove (H : st.Consistent) (hc : st.conns[c]? = some conn)
    {f : TConnection → TConnection} {e : TConnectionEvent}
    (hconns : st'.conns = st.conns.modify c f) (hpoller : st'.poller = st.poller.remove e)
    (he : e.owner.1 = c) (hfd : (f conn).fd = conn.fd)
    (hclosed : conn.closed = true → (f conn).closed = true)
    (hok : ConnOK (st.poller.remove e) c (f conn))
    (hold : ∀ ev, ev ≠ e → Owns c conn ev → Owns c (f conn) ev) : st'.Consistent := by
  refine H.modify hc hconns hfd hclosed (hpoller ▸ hok) ?_ ?_
  · intro fd ev hne
    rw [hpoller]
    exact mem_remove_ne (ne_of_owner (he.symm ▸ hne))
  · intro fd ev hev howner
    rw [hpoller] at hev
    obtain ⟨hev, hne⟩ := mem_remove.1 hev
    exact hold ev hne (Owns.of_owner H hc hev howner)

theorem Consistent.connStep (H : st.Consistent) (hc : st.conns[c]? = some conn)
    {call : TConnectionCall} (h : st.connStep c conn call = some st') : st'.Consistent := by
  have hok := H.conn c conn hc
  have hown : ∀ (fd : Nat) (ev : TConnectionEvent), ev ∈ st.poller.list fd → ev.owner.1 = c →
      Owns c conn ev :=
    fun _ _ hev howner => Owns.of_owner H hc hev howner
  have hid : st.conns = st.conns.modify c id := (List.modify_id ..).symm
  cases call with
  | start =>
    obtain ⟨⟨hout, hended⟩, h⟩ := ite_none_right_eq_some.1 h
    cases h
    refine H.modify hc rfl rfl id ⟨hok.valid, ?_, hok.polling, hok.closed⟩ (fun _ _ _ => Iff.rfl) ?_
    · rintro fd hfd
      cases hfd
      refine ⟨hended, ?_⟩
      unfold TConnection.socket
      split
      · exact .inr rfl
      · exact .inl rfl
    · intro fd ev hev howner
      rcases hown fd ev hev howner with ⟨fd', -, hout'⟩ | hpoll
      · rw [hout] at hout'
        cases hout'
      · exact .inr hpoll
  | send =>
    obtain ⟨fd, hout, rfl⟩ := map_eq_some_iff.1 h
    refine H.schedule hc rfl rfl rfl rfl id
      ⟨hok.valid, hok.out, fun hp => ⟨(hok.polling hp).1, ?_⟩,
        hok.closed⟩ (.inl ⟨fd, rfl, hout⟩) fun _ => id
    exact mem_schedule.2 (.inr (hok.polling hp).2)
  | sent | sendFailed =>
    obtain ⟨-, h⟩ := ite_none_right_eq_some.1 h
    cases h
    exact H.modify hc rfl rfl id ⟨hok.valid, hok.out, hok.polling, hok.closed⟩
      (fun _ _ _ => Iff.rfl) hown
  | written =>
    obtain ⟨fd, hout, h⟩ := Option.bind_eq_some_iff.1 h
    obtain ⟨-, h⟩ := ite_none_right_eq_some.1 h
    cases h
    refine H.remove hc hid rfl rfl rfl id
      ⟨hok.valid, hok.out, fun hp => ⟨(hok.polling hp).1, ?_⟩, hok.closed⟩ fun _ _ => id
    exact mem_remove.2 ⟨(hok.polling hp).2, nofun⟩
  | wait =>
    obtain ⟨⟨hout, -, -⟩, h⟩ := ite_none_right_eq_some.1 h
    cases h
    obtain ⟨fd, hout⟩ := Option.isSome_iff_exists.1 hout
    refine H.schedule hc rfl rfl rfl rfl id
      ⟨hok.valid, hok.out, fun _ => ⟨(hok.out fd hout).1, ?_⟩, hok.closed⟩ (.inr ⟨rfl, rfl⟩) ?_
    · exact mem_schedule.2 (.inl ⟨rfl, rfl⟩)
    · exact fun ev hown => hown.imp_right fun h => ⟨h.1, rfl⟩
  | resume again =>
    cases again with
    | true =>
      obtain ⟨hp, h⟩ := ite_none_right_eq_some.1 h
      cases h
      have hmem : ∀ (fd : Nat) (ev : TConnectionEvent),
          ev ∈ ((st.poller.remove (fdEvent c conn.fd)).schedule
          (fdEvent c conn.fd)).list fd ↔ ev ∈ st.poller.list fd :=
        fun _ _ => mem_reschedule (hok.polling hp).2
      refine H.modify hc hid rfl id ⟨hok.valid, hok.out, fun hp => ⟨(hok.polling hp).1, ?_⟩,
        hok.closed⟩ ?_ ?_
      · exact (hmem _ _).2 (hok.polling hp).2
      · exact fun fd' ev _ => hmem fd' ev
      · exact fun fd' ev hev howner => hown fd' ev ((hmem fd' ev).1 hev) howner
    | false =>
      obtain ⟨-, h⟩ := ite_none_right_eq_some.1 h
      cases h
      refine H.remove hc rfl rfl rfl rfl id ⟨hok.valid, hok.out, nofun, hok.closed⟩ fun ev hne
        hown => ?_
      rcases hown with hout | ⟨rfl, -⟩
      · exact .inl hout
      · exact absurd rfl hne
  | complete =>
    obtain ⟨⟨hp, -⟩, h⟩ := ite_none_right_eq_some.1 h
    obtain ⟨fd, hout, rfl⟩ := map_eq_some_iff.1 h
    -- the coroutine is not in `PollD`, so the connection has no event but its `TSocketOut`
    refine H.remove hc rfl rfl rfl rfl (fun _ => rfl) ⟨hok.valid, nofun, ?_, by simp⟩ fun ev hne
      hown => ?_
    · intro hp'
      exact absurd (hp.symm.trans hp') nofun
    · rcases hown with ⟨fd', rfl, hout'⟩ | ⟨-, hp'⟩
      · rw [hout] at hout'
        cases hout'
        exact absurd rfl hne
      · exact absurd (hp.symm.trans hp') nofun

theorem Consistent.accept (H : st.Consistent) {fd : Nat} (hfree : st.Free fd) :
    (st.onAcceptFull fd).Consistent := by
  have hpoller : (st.onAcceptFull fd).poller = st.poller := by rw [onAcceptFull_eq]
  have hnew : ∀ (c : Nat) (conn : TConnection), st.conns[c]? = some conn → conn.closed = false →
      conn.fd ≠ fd :=
    fun _ conn hc => hfree.2 conn (List.mem_of_getElem? hc)
  refine ⟨?_, ?_, ?_⟩
  · rw [hpoller]
    intro c conn' hc
    rcases onAcceptFull_cases hc with ⟨conn, hconn, rfl⟩ | ⟨-, rfl⟩
    · have hok := H.conn c conn hconn
      refine ⟨hok.valid, hok.out, hok.polling, ?_⟩
      have hcount := List.count_pos_iff (a := c) (l := st.victims)
      simp only [cancelledIn, Bool.or_eq_true, decide_eq_true_eq, hok.closed, ← hcount]
      constructor
      · rintro ((h | h) | h)
        · exact .inl (by omega)
        · exact .inr h
        · exact .inl (by omega)
      · rintro (h | h)
        · rcases Nat.eq_zero_or_pos conn.cancelled with h0 | h0
          · exact .inr (by omega)
          · exact .inl (.inl h0)
        · exact .inl (.inr h)
    · exact ⟨hfree.1, by simp, by simp, by simp⟩
  · intro c₁ c₂ conn₁ conn₂ h₁ h₂ hcl₁ hcl₂ hfd
    rcases onAcceptFull_cases h₁ with ⟨conn₁', hc₁, rfl⟩ | ⟨rfl, rfl⟩ <;>
      rcases onAcceptFull_cases h₂ with ⟨conn₂', hc₂, rfl⟩ | ⟨rfl, rfl⟩
    · simp only [cancelledIn, Bool.or_eq_false_iff] at hcl₁ hcl₂
      exact H.distinct c₁ c₂ conn₁' conn₂' hc₁ hc₂ hcl₁.1 hcl₂.1 hfd
    · simp only [cancelledIn, Bool.or_eq_false_iff] at hcl₁
      exact absurd hfd (hnew c₁ conn₁' hc₁ hcl₁.1)
    · simp only [cancelledIn, Bool.or_eq_false_iff] at hcl₂
      exact absurd hfd.symm (hnew c₂ conn₂' hc₂ hcl₂.1)
    · rfl
  · rw [hpoller]
    intro fd' ev hev
    obtain ⟨conn, hc, hown⟩ := H.owner fd' ev hev
    exact ⟨_, onAcceptFull_old fd hc, hown⟩

theorem Consistent.step (H : st.Consistent) {e : TMainEvent} (h : system.step st e = some st') :
    st'.Consistent := by
  rcases step_cases h with ⟨fd, rfl, hfree, rfl⟩ | ⟨c, call, conn, rfl, hc, hs⟩
  · exact H.accept hfree
  · exact H.connStep hc hs

/-! ### Lists without events of cancelled connections -/

/-- No event of a cancelled connection is in the list of the descriptor that it had. -/
def NoStale (conns : List TConnection) (poller : TContPoller (Nat × TPollKind)) : Prop :=
  ∀ (c : Nat) (conn : TConnection), conns[c]? = some conn → 0 < conn.cancelled →
    ∀ ev ∈ poller.list conn.fd, ev.owner.1 ≠ c

/-- Nothing stale is left in the poller, poll results for an open descriptor go to the events of its
connection only, and the flags that are registered for it are those of these events. -/
structure Separate (st : TMainTask) : Prop where
  stale : NoStale st.conns st.poller
  delivered : ∀ (c : Nat) (conn : TConnection), st.conns[c]? = some conn → conn.closed = false →
    ∀ status filter, ∀ ev ∈ st.poller.delivered conn.fd status filter, ev.owner.1 = c
  flags : ∀ (c : Nat) (conn : TConnection), st.conns[c]? = some conn → conn.closed = false →
    st.poller.set conn.fd = pollFlags ((st.poller.list conn.fd).filter fun ev => ev.owner.1 = c)

/-- A connection is cancelled only when it has no event in the poller, and does not call `Send`
afterwards (unless its coroutine started only then, with no descriptor at all). -/
def Quiet (st : TMainTask) : TMainEvent → Prop
  | .accept _ => ∀ c ∈ st.victims, ∀ conn, st.conns[c]? = some conn →
      ∀ ev ∈ st.poller.list conn.fd, ev.owner.1 ≠ c
  | .conn c .send => ∀ conn, st.conns[c]? = some conn → 0 < conn.cancelled → conn.out ≠ some conn.fd
  | _ => True

/-- The events in the list of an open descriptor belong to its connection or to a cancelled one that
had it before. -/
theorem Consistent.owner_eq (H : st.Consistent) (hc : st.conns[c]? = some conn)
    (hopen : conn.closed = false) (hstale : NoStale st.conns st.poller)
    (hev : ev ∈ st.poller.list conn.fd) : ev.owner.1 = c := by
  obtain ⟨conn', hc', hown⟩ := H.owner _ ev hev
  have hok := H.conn c conn hc
  have hok' := H.conn _ conn' hc'
  have hlist := st.poller.listed _ ev hev
  have hfd : conn'.fd = conn.fd ∧ conn'.ended = false := by
    rcases hown with ⟨fd, heq, hout⟩ | ⟨heq, hp⟩
    · obtain ⟨hended, hfd⟩ := hok'.out fd hout
      rw [heq] at hlist
      have hlist : fd = conn.fd := hlist
      rcases hfd with rfl | rfl
      · exact ⟨hlist, hended⟩
      · exact absurd hlist.symm hok.valid
    · rw [heq] at hlist
      exact ⟨hlist, (hok'.polling hp).1⟩
  have hopen' : conn'.closed = false := by
    by_contra hcl
    rcases hok'.closed.1 (Bool.not_eq_false _ ▸ hcl) with hcan | hended
    · exact hstale _ conn' hc' hcan ev (hfd.1.symm ▸ hev) rfl
    · exact absurd (hfd.2.symm.trans hended) nofun
  exact H.distinct _ c conn' conn hc' hc hopen' hopen hfd.1

theorem Consistent.separate_iff (H : st.Consistent) :
    st.Separate ↔ NoStale st.conns st.poller := by
  refine ⟨Separate.stale, fun hstale => ⟨hstale, ?_, ?_⟩⟩
  · intro c conn hc hopen status filter ev hev
    exact H.owner_eq hc hopen hstale (mem_of_delivered hev)
  · intro c conn hc hopen
    have hall : (st.poller.list conn.fd).filter (fun ev => ev.owner.1 = c) =
        st.poller.list conn.fd := by
      rw [List.filter_eq_self]
      intro ev hev
      simpa using H.owner_eq hc hopen hstale hev
    rw [hall, st.poller.registered]

/-- The events that a call in the coroutine of `c` may add to the poller. -/
theorem connStep_added {call : TConnectionCall} (h : st.connStep c conn call = some st') {fd : Nat}
    (hev : ev ∈ st'.poller.list fd) : ev ∈ st.poller.list fd ∨
      call = .send ∧ ev = socketOut c fd ∧ conn.out = some fd ∨
      ev = fdEvent c fd ∧ fd = conn.fd ∧ (conn.closed = false ∨ conn.polling = true) := by
  cases call with
  | start | sent | sendFailed =>
    obtain ⟨-, h⟩ := ite_none_right_eq_some.1 h
    cases h
    exact .inl hev
  | send =>
    obtain ⟨fd', hout, rfl⟩ := map_eq_some_iff.1 h
    rcases mem_schedule.1 hev with ⟨rfl, rfl⟩ | hev
    · exact .inr (.inl ⟨rfl, rfl, hout⟩)
    · exact .inl hev
  | written =>
    obtain ⟨fd', -, h⟩ := Option.bind_eq_some_iff.1 h
    obtain ⟨-, h⟩ := ite_none_right_eq_some.1 h
    cases h
    exact .inl (mem_remove.1 hev).1
  | wait =>
    obtain ⟨⟨-, -, hopen⟩, h⟩ := ite_none_right_eq_some.1 h
    cases h
    rcases mem_schedule.1 hev with ⟨rfl, rfl⟩ | hev
    · exact .inr (.inr ⟨rfl, rfl, .inl hopen⟩)
    · exact .inl hev
  | resume again =>
    cases again with
    | true =>
      obtain ⟨hp, h⟩ := ite_none_right_eq_some.1 h
      cases h
      rcases mem_schedule.1 hev with ⟨rfl, rfl⟩ | hev
      · exact .inr (.inr ⟨rfl, rfl, .inr hp⟩)
      · exact .inl (mem_remove.1 hev).1
    | false =>
      obtain ⟨-, h⟩ := ite_none_right_eq_some.1 h
      cases h
      exact .inl (mem_remove.1 hev).1
  | complete =>
    obtain ⟨-, h⟩ := ite_none_right_eq_some.1 h
    obtain ⟨fd', -, rfl⟩ := map_eq_some_iff.1 h
    exact .inl (mem_remove.1 hev).1

/-- The descriptors and the cancellations are the same before and after a call. -/
theorem noStale_touches {call : TConnectionCall} (T : Touches st st' c call)
    (poller : TContPoller (Nat × TPollKind)) :
    NoStale st'.conns poller ↔ NoStale st.conns poller := by
  obtain ⟨f, hf, hkeep⟩ := T.conns
  constructor
  · intro h c' conn' hc' hcan
    have hsame : ∀ conn, ((f conn).fd, (f conn).cancelled) = (conn.fd, conn.cancelled) :=
      fun conn => Prod.ext (hkeep conn).1 (hkeep conn).2
    obtain ⟨conn₁, hc₁, hconn₁⟩ :=
      exists_getElem?_modify (g := fun conn => (conn.fd, conn.cancelled)) hsame hc'
    obtain ⟨hfd, hcan₁⟩ := Prod.mk.inj hconn₁
    have := h c' conn₁ (hf ▸ hc₁) (hcan₁ ▸ hcan)
    rwa [hfd] at this
  · intro h c' conn' hc' hcan
    rw [hf] at hc'
    rcases getElem?_modify_cases hc' with ⟨rfl, conn₀, hc₀, rfl⟩ | ⟨-, hc₀⟩
    · rw [(hkeep conn₀).2] at hcan
      rw [(hkeep conn₀).1]
      exact h c' conn₀ hc₀ hcan
    · exact h c' conn' hc₀ hcan

theorem separate_connStep_iff (H : st.Consistent) (hP : st.Separate) (hc : st.conns[c]? = some conn)
    {call : TConnectionCall} (h : st.connStep c conn call = some st') :
    st'.Separate ↔ st.Quiet (.conn c call) := by
  rw [(H.connStep hc h).separate_iff, noStale_touches (connStep_touches h)]
  -- what a call other than `Send` adds belongs to an open connection, or was there before
  have hadd : ∀ (c' : Nat) (conn' : TConnection), st.conns[c']? = some conn' → 0 < conn'.cancelled →
      ∀ ev ∈ st'.poller.list conn'.fd, ev.owner.1 = c' →
      call = .send ∧ c' = c ∧ conn.out = some conn'.fd := by
    intro c' conn' hc' hcan ev hev howner
    rcases connStep_added h hev with hev | ⟨hcall, rfl, hout⟩ | ⟨rfl, hfd, hwait⟩
    · exact absurd howner (hP.stale c' conn' hc' hcan ev hev)
    · exact ⟨hcall, howner.symm, hout⟩
    · obtain rfl : c = c' := howner
      rw [hc] at hc'
      cases hc'
      rcases hwait with hopen | hp
      · have := (H.conn c conn hc).not_cancelled hopen
        omega
      · exact absurd rfl (hP.stale c conn hc hcan _ ((H.conn c conn hc).polling hp).2)
  cases call with
  | send =>
    constructor
    · intro hs conn' hc' hcan hout
      rw [hc] at hc'
      cases hc'
      obtain ⟨fd, hout', rfl⟩ := map_eq_some_iff.1 h
      rw [hout] at hout'
      cases hout'
      exact hs c conn hc hcan (socketOut c conn.fd) (mem_schedule.2 (.inl ⟨rfl, rfl⟩)) rfl
    · intro hq c' conn' hc' hcan ev hev howner
      obtain ⟨-, rfl, hout⟩ := hadd c' conn' hc' hcan ev hev howner
      rw [hc] at hc'
      cases hc'
      exact hq conn hc hcan hout
  | _ =>
    refine iff_of_true (fun c' conn' hc' hcan ev hev howner => ?_) trivial
    cases (hadd c' conn' hc' hcan ev hev howner).1

theorem separate_accept_iff (H : st.Consistent) (hP : st.Separate) {fd : Nat} (hfree : st.Free fd) :
    (st.onAcceptFull fd).Separate ↔ st.Quiet (.accept fd) := by
  have hpoller : (st.onAcceptFull fd).poller = st.poller := by rw [onAcceptFull_eq]
  rw [(H.accept hfree).separate_iff, hpoller]
  constructor
  · intro hs c hv conn hc
    have hcan : 0 < (cancelledIn st.victims c conn).cancelled :=
      Nat.add_pos_right _ (List.count_pos_iff.2 hv)
    exact hs c (cancelledIn st.victims c conn) (onAcceptFull_old fd hc) hcan
  · intro hq c conn' hc' hcan
    rcases onAcceptFull_cases hc' with ⟨conn, hc, rfl⟩ | ⟨-, rfl⟩
    · by_cases hv : c ∈ st.victims
      · exact hq c hv conn hc
      · have hcan : 0 < conn.cancelled + st.victims.count c := hcan
        rw [List.count_eq_zero_of_not_mem hv] at hcan
        exact hP.stale c conn hc hcan
    · cases hcan

end TMainTask

/-- Any run of accepts and connections: no event of a cancelled connection stays in the list of the
descriptor that it had, so that a connection with the same number gets its own poll results and
flags only, exactly when connections are cancelled only while they have no event in the poller, and
send nothing afterwards. -/
theorem descriptors_separate_iff (m : Nat) (evs : List TMainEvent)
    (hrun : (TMainTask.system.run { maxConnections := m } evs).isSome) :
    TMainTask.system.Always TMainTask.Separate { maxConnections := m } evs ↔
      TMainTask.system.EachStep TMainTask.Quiet { maxConnections := m } evs := by
  refine always_iff_eachStep (I := TMainTask.Consistent) hrun ?_ ?_ ?_ ?_
  · intro st ev st' H h
    exact H.step h
  · intro st ev st' H hP h
    rcases TMainTask.step_cases h with ⟨fd, rfl, hfree, rfl⟩ | ⟨c, call, conn, rfl, hc, hs⟩
    · exact TMainTask.separate_accept_iff H hP hfree
    · exact TMainTask.separate_connStep_iff H hP hc hs
  · exact ⟨by simp, by simp, by simp⟩
  · exact ⟨by simp [TMainTask.NoStale], by simp, by simp⟩

/-- A connection that has just read something is cancelled, and its number is used again. -/
theorem descriptors_separate_idle :
    TMainTask.system.Always TMainTask.Separate { maxConnections := 1 }
      [.accept 3, .conn 0 .start, .conn 0 .wait, .conn 0 (.resume false), .accept 4, .accept 5,
        .accept 3] := by
  refine (descriptors_separate_iff 1 _ rfl).2 ?_
  refine (eachStep_cons rfl).2 ⟨nofun, (eachStep_cons rfl).2 ⟨trivial,
    (eachStep_cons rfl).2 ⟨trivial, (eachStep_cons rfl).2 ⟨trivial,
      (eachStep_cons rfl).2 ⟨nofun, (eachStep_cons rfl).2 ⟨?_,
        (eachStep_cons rfl).2 ⟨?_, eachStep_nil⟩⟩⟩⟩⟩⟩⟩
  · intro c hc conn hconn ev hev
    cases List.mem_singleton.1 hc
    cases hconn
    cases hev
  · intro c hc conn hconn ev hev
    cases List.mem_singleton.1 hc
    cases hconn
    cases hev

/-- The first connection waits for its client when it is cancelled. Its event is still in the list
of the descriptor 3 when another connection gets this number: a poll result for that one goes to the
first one, and the flags are registered for the event of the first one. -/
theorem descriptors_not_separate :
    ∃ st, TMainTask.system.run { maxConnections := 1 }
        [.accept 3, .conn 0 .start, .conn 0 .wait, .accept 4, .accept 5, .accept 3] = some st ∧
      ¬st.Separate ∧ st.poller.delivered 3 0 CONT_POLL_READ = [fdEvent 0 3] ∧
      st.poller.set 3 = CONT_POLL_READ := by
  refine ⟨_, rfl, fun h => ?_, rfl, rfl⟩
  exact h.stale 0 _ rfl Nat.one_pos (fdEvent 0 3) List.mem_cons_self rfl

end Balancer
