import Balancer.Kernel.Main
import Balancer.Theory.Objects

/-!
# Eviction of connections

`OnAcceptFull` brings the list down to `maxconn` before it adds the new connection, so one more is
left in it, and it counts the entries of the list whether they were cancelled or not
(`connections_bounded_iff`). A cancelled connection comes back into the list when one of its calls
of `Send` returns, and only then (`connections_evicted_once_iff`).
-/

namespace Balancer

open Runs Objects System

namespace TMainTask

variable {st st' : TMainTask}

/-! ### What `OnAcceptFull` does -/

/-- The connections that the next `OnAcceptFull` cancels, and those that it keeps. -/
def victims (st : TMainTask) : List Nat :=
  if st.maxConnections = 0 then []
  else st.connections.take (st.connections.length - st.maxConnections)

def kept (st : TMainTask) : List Nat :=
  if st.maxConnections = 0 then st.connections
  else st.connections.drop (st.connections.length - st.maxConnections)

def cancelAll (conns : List TConnection) (cs : List Nat) : List TConnection :=
  cs.foldl (fun conns c => conns.modify c TConnection.cancel) conns

theorem evict_eq (st : TMainTask) (l : List Nat) :
    st.evict l = { st with
      connections := l.drop (l.length - st.maxConnections)
      canceled := st.canceled + (l.take (l.length - st.maxConnections)).length
      conns := cancelAll st.conns (l.take (l.length - st.maxConnections)) } := by
  induction l generalizing st with
  | nil => simp [evict, cancelAll]
  | cons c rest ih =>
    unfold evict
    split
    · next h =>
      have hlen : (c :: rest).length - st.maxConnections = rest.length - st.maxConnections + 1 := by
        simp only [List.length_cons] at h ⊢
        omega
      rw [ih, hlen]
      simp only [modifyConn, List.drop_succ_cons, List.take_succ_cons, List.length_cons, cancelAll,
        List.foldl_cons, TMainTask.mk.injEq, and_true, true_and]
      omega
    · next h =>
      have hlen : (c :: rest).length - st.maxConnections = 0 := by omega
      rw [hlen]
      simp [cancelAll]

theorem length_cancelAll (conns : List TConnection) (cs : List Nat) :
    (cancelAll conns cs).length = conns.length := by
  induction cs generalizing conns with
  | nil => rfl
  | cons c cs ih => rw [cancelAll, List.foldl_cons, ← cancelAll, ih, List.length_modify]

theorem onAcceptFull_eq (st : TMainTask) (fd : Nat) :
    st.onAcceptFull fd = { st with
      connections := st.kept ++ [st.conns.length]
      canceled := st.canceled + st.victims.length
      conns := cancelAll st.conns st.victims ++ [{ fd }] } := by
  unfold onAcceptFull victims kept
  split
  · rw [evict_eq]
    simp only [length_cancelAll]
  · next h => simp [cancelAll, not_not.1 h]

theorem cancelAll_cons (conns : List TConnection) (c : Nat) (cs : List Nat) :
    cancelAll conns (c :: cs) = cancelAll (conns.modify c TConnection.cancel) cs := rfl

/-- The connection `c` after the connections `cs` were cancelled. -/
def cancelledIn (cs : List Nat) (c : Nat) (conn : TConnection) : TConnection :=
  { conn with closed := conn.closed || decide (c ∈ cs), cancelled := conn.cancelled + cs.count c }

theorem getElem?_cancelAll (conns : List TConnection) (cs : List Nat) (c : Nat) :
    (cancelAll conns cs)[c]? = conns[c]?.map (cancelledIn cs c) := by
  induction cs generalizing conns with
  | nil =>
    have hid : cancelledIn [] c = id := by
      funext conn
      simp [cancelledIn]
    simp [cancelAll, hid]
  | cons c' cs ih =>
    rw [cancelAll_cons, ih, List.getElem?_modify]
    cases conns[c]? with
    | none => rfl
    | some conn =>
      by_cases hc : c' = c
      · simp [hc, TConnection.cancel, cancelledIn]
        omega
      · simp [hc, Ne.symm hc, cancelledIn]

theorem onAcceptFull_old (fd : Nat) {c : Nat} {conn : TConnection} (hc : st.conns[c]? = some conn) :
    (st.onAcceptFull fd).conns[c]? = some (cancelledIn st.victims c conn) := by
  have hlt := (List.getElem?_eq_some_iff.1 hc).1
  rw [onAcceptFull_eq]
  simp only
  rw [List.getElem?_append_left (by rwa [length_cancelAll]), getElem?_cancelAll, hc]
  rfl

theorem onAcceptFull_cases {fd c : Nat} {conn' : TConnection}
    (hc : (st.onAcceptFull fd).conns[c]? = some conn') :
    (∃ conn, st.conns[c]? = some conn ∧ conn' = cancelledIn st.victims c conn) ∨
      c = st.conns.length ∧ conn' = { fd } := by
  rw [onAcceptFull_eq] at hc
  rcases getElem?_concat_cases hc with ⟨-, hc⟩ | ⟨hlen, rfl⟩
  · rw [getElem?_cancelAll] at hc
    obtain ⟨conn, hconn, rfl⟩ := Option.map_eq_some_iff.1 hc
    exact .inl ⟨conn, hconn, rfl⟩
  · exact .inr ⟨by rwa [length_cancelAll] at hlen, rfl⟩

theorem countP_cancelAll {conns : List TConnection} {cs : List Nat} (hnodup : cs.Nodup)
    (hcs : ∀ c ∈ cs, ∃ conn, conns[c]? = some conn ∧ conn.cancelled = 0) :
    (cancelAll conns cs).countP (0 < ·.cancelled) = conns.countP (0 < ·.cancelled) + cs.length := by
  induction cs generalizing conns with
  | nil => rfl
  | cons c cs ih =>
    obtain ⟨hc, hnodup⟩ := List.nodup_cons.1 hnodup
    obtain ⟨conn, hconn, h0⟩ := hcs c List.mem_cons_self
    rw [cancelAll_cons, ih hnodup,
      countP_modify hconn (by simp [h0]) (by simp [TConnection.cancel]), List.length_cons]
    · omega
    · intro c' hc'
      obtain ⟨conn', hconn', h0'⟩ := hcs c' (List.mem_cons_of_mem _ hc')
      refine ⟨conn', ?_, h0'⟩
      rw [getElem?_modify_ne]
      · exact hconn'
      · rintro rfl
        exact hc hc'

/-! ### What a connection does -/

/-- `Connections_` after a call in the coroutine of the connection `c`. -/
def relinked (c : Nat) (connections : List Nat) : TConnectionCall → List Nat
  | .sent => connections.erase c ++ [c]
  | .complete => connections.erase c
  | _ => connections

/-- A call in the coroutine of `c` changes this connection only, and cancels nothing. -/
structure Touches (st st' : TMainTask) (c : Nat) (call : TConnectionCall) : Prop where
  conns : ∃ f : TConnection → TConnection, st'.conns = st.conns.modify c f ∧
    ∀ conn, (f conn).fd = conn.fd ∧ (f conn).cancelled = conn.cancelled
  canceled : st'.canceled = st.canceled
  maxConnections : st'.maxConnections = st.maxConnections
  connections : st'.connections = relinked c st.connections call

theorem connStep_touches {c : Nat} {conn : TConnection} {call : TConnectionCall}
    (h : st.connStep c conn call = some st') : Touches st st' c call := by
  have hsame : st.conns = st.conns.modify c id := (List.modify_id ..).symm
  cases call with
  | start =>
    obtain ⟨-, h⟩ := Option.ite_none_right_eq_some.1 h
    cases h
    exact ⟨⟨_, rfl, fun _ => ⟨rfl, rfl⟩⟩, rfl, rfl, rfl⟩
  | send =>
    obtain ⟨fd, -, rfl⟩ := Option.map_eq_some_iff.1 h
    exact ⟨⟨_, rfl, fun _ => ⟨rfl, rfl⟩⟩, rfl, rfl, rfl⟩
  | sent | sendFailed | wait =>
    obtain ⟨-, h⟩ := Option.ite_none_right_eq_some.1 h
    cases h
    exact ⟨⟨_, rfl, fun _ => ⟨rfl, rfl⟩⟩, rfl, rfl, rfl⟩
  | written =>
    obtain ⟨fd, -, h⟩ := Option.bind_eq_some_iff.1 h
    obtain ⟨-, h⟩ := Option.ite_none_right_eq_some.1 h
    cases h
    exact ⟨⟨id, hsame, fun _ => ⟨rfl, rfl⟩⟩, rfl, rfl, rfl⟩
  | resume again =>
    cases again with
    | true =>
      obtain ⟨-, h⟩ := Option.ite_none_right_eq_some.1 h
      cases h
      exact ⟨⟨id, hsame, fun _ => ⟨rfl, rfl⟩⟩, rfl, rfl, rfl⟩
    | false =>
      obtain ⟨-, h⟩ := Option.ite_none_right_eq_some.1 h
      cases h
      exact ⟨⟨_, rfl, fun _ => ⟨rfl, rfl⟩⟩, rfl, rfl, rfl⟩
  | complete =>
    obtain ⟨-, h⟩ := Option.ite_none_right_eq_some.1 h
    obtain ⟨fd, -, rfl⟩ := Option.map_eq_some_iff.1 h
    exact ⟨⟨_, rfl, fun _ => ⟨rfl, rfl⟩⟩, rfl, rfl, rfl⟩

/-- The steps of the system. -/
theorem step_cases {ev : TMainEvent} (h : system.step st ev = some st') :
    (∃ fd, ev = .accept fd ∧ st.Free fd ∧ st' = st.onAcceptFull fd) ∨
    ∃ c call conn, ev = .conn c call ∧ st.conns[c]? = some conn ∧
      st.connStep c conn call = some st' := by
  cases ev with
  | accept fd =>
    obtain ⟨hfree, h⟩ := Option.ite_none_right_eq_some.1 h
    cases h
    exact .inl ⟨fd, rfl, hfree, rfl⟩
  | conn c call =>
    obtain ⟨conn, hconn, h⟩ := Option.bind_eq_some_iff.1 h
    exact .inr ⟨c, call, conn, rfl, hconn, h⟩

/-! ### The list of connections -/

def isCancelled (st : TMainTask) (c : Nat) : Bool := st.conns[c]?.any (0 < ·.cancelled)

/-- The connections in `Connections_` that have not been cancelled. -/
def live (st : TMainTask) : List Nat := st.connections.filter (!st.isCancelled ·)

structure Linked (m : Nat) (st : TMainTask) : Prop where
  max : st.maxConnections = m
  nodup : st.connections.Nodup
  lt : ∀ c ∈ st.connections, c < st.conns.length

theorem kept_sublist (st : TMainTask) : st.kept.Sublist st.connections := by
  unfold kept
  split
  · exact List.Sublist.refl _
  · exact List.drop_sublist ..

theorem victims_sublist (st : TMainTask) : st.victims.Sublist st.connections := by
  unfold victims
  split
  · exact List.nil_sublist _
  · exact List.take_sublist ..

theorem not_mem_victims {m : Nat} (H : st.Linked m) {c : Nat} (hc : c ∈ st.kept) :
    c ∉ st.victims := by
  unfold kept at hc
  unfold victims
  split
  · simp
  · next h =>
    rw [if_neg h] at hc
    exact fun hv => List.disjoint_take_drop H.nodup (Nat.le_refl _) hv hc

theorem Linked.step {m : Nat} (H : st.Linked m) {ev : TMainEvent}
    (h : system.step st ev = some st') : st'.Linked m := by
  rcases step_cases h with ⟨fd, rfl, -, rfl⟩ | ⟨c, call, conn, rfl, hconn, hs⟩
  · rw [onAcceptFull_eq]
    refine ⟨H.max, ?_, ?_⟩
    · refine List.nodup_append.2 ⟨H.nodup.sublist st.kept_sublist, List.nodup_singleton _, ?_⟩
      intro c hc c' hc'
      rw [List.mem_singleton.1 hc']
      exact Nat.ne_of_lt (H.lt c (st.kept_sublist.subset hc))
    · intro c hc
      simp only [List.length_append, length_cancelAll, List.length_singleton]
      rcases List.mem_append.1 hc with hc | hc
      · have := H.lt c (st.kept_sublist.subset hc)
        omega
      · rw [List.mem_singleton.1 hc]
        omega
  · have T := connStep_touches hs
    obtain ⟨f, hf, -⟩ := T.conns
    have hc := (List.getElem?_eq_some_iff.1 hconn).1
    refine ⟨T.maxConnections.trans H.max, ?_, ?_⟩
    · rw [T.connections]
      cases call with
      | sent =>
        refine List.nodup_append.2 ⟨H.nodup.erase c, List.nodup_singleton _, ?_⟩
        intro a ha b hb
        rw [List.mem_singleton.1 hb]
        rintro rfl
        exact H.nodup.not_mem_erase ha
      | complete => exact H.nodup.erase c
      | _ => exact H.nodup
    · intro c' hc'
      rw [hf, List.length_modify]
      rw [T.connections] at hc'
      cases call with
      | sent =>
        rcases List.mem_append.1 hc' with hc' | hc'
        · exact H.lt c' (List.mem_of_mem_erase hc')
        · rw [List.mem_singleton.1 hc']
          exact hc
      | complete => exact H.lt c' (List.mem_of_mem_erase hc')
      | _ => exact H.lt c' hc'

theorem linked_init (m : Nat) : Linked m { maxConnections := m } := ⟨rfl, List.nodup_nil, by simp⟩

theorem isCancelled_touches {c : Nat} {call : TConnectionCall} (T : Touches st st' c call)
    (c' : Nat) : st'.isCancelled c' = st.isCancelled c' := by
  obtain ⟨f, hf, hkeep⟩ := T.conns
  unfold isCancelled
  rw [hf, List.getElem?_modify]
  cases st.conns[c']? with
  | none => rfl
  | some conn =>
    simp only [Option.map_eq_map, Option.map_some, Option.any_some]
    split
    · rw [(hkeep conn).2]
    · rfl

/-- `OnAcceptFull` cancels its victims and nothing else. -/
theorem isCancelled_onAcceptFull (fd : Nat) {c : Nat} (hc : c < st.conns.length) :
    (st.onAcceptFull fd).isCancelled c = (st.isCancelled c || decide (c ∈ st.victims)) := by
  have hconn := List.getElem?_eq_getElem hc
  unfold isCancelled
  rw [onAcceptFull_old fd hconn, hconn]
  by_cases hv : c ∈ st.victims
  · have := List.count_pos_iff.2 hv
    simp [cancelledIn, hv, this]
  · simp [cancelledIn, hv, List.count_eq_zero_of_not_mem hv]

theorem isCancelled_new (fd : Nat) : (st.onAcceptFull fd).isCancelled st.conns.length = false := by
  unfold isCancelled
  rw [onAcceptFull_eq]
  simp only
  rw [List.getElem?_append_right (by rw [length_cancelAll])]
  simp [length_cancelAll]

/-! ### The number of connections -/

/-- After `OnAcceptFull` there are the live ones among those that were kept, and the new one. -/
theorem live_onAcceptFull {m : Nat} (H : st.Linked m) (fd : Nat) :
    (st.onAcceptFull fd).live = st.kept.filter (!st.isCancelled ·) ++ [st.conns.length] := by
  have hconns : (st.onAcceptFull fd).connections = st.kept ++ [st.conns.length] := by
    rw [onAcceptFull_eq]
  unfold live
  rw [hconns, List.filter_append]
  congr 1
  · apply List.filter_congr
    intro c hc
    rw [isCancelled_onAcceptFull fd (H.lt c (st.kept_sublist.subset hc))]
    simp [not_mem_victims H hc]
  · simp [isCancelled_new]

theorem length_kept {m : Nat} (H : st.Linked m) (hm : 0 < m) :
    st.kept.length = min st.connections.length m := by
  unfold kept
  rw [H.max, if_neg (by omega), List.length_drop]
  omega

/-- After `OnAcceptFull` no more than `maxconn` connections are alive. -/
def Bounded (st : TMainTask) : TMainEvent → Prop
  | .accept fd => (st.onAcceptFull fd).live.length ≤ st.maxConnections
  | _ => True

/-- Before `OnAcceptFull` the list is not full, or the part of it that is kept holds a cancelled
connection. -/
def HasRoom (st : TMainTask) : TMainEvent → Prop
  | .accept _ => st.connections.length < st.maxConnections ∨ ∃ c ∈ st.kept, st.isCancelled c = true
  | _ => True

theorem bounded_iff {m : Nat} (H : st.Linked m) (hm : 0 < m) (ev : TMainEvent) :
    st.Bounded ev ↔ st.HasRoom ev := by
  cases ev with
  | conn c call => exact Iff.rfl
  | accept fd =>
    have hlen := length_kept H hm
    have hle := List.length_filter_le (!st.isCancelled ·) st.kept
    have hall : (st.kept.filter (!st.isCancelled ·)).length = st.kept.length ↔
        ¬∃ c ∈ st.kept, st.isCancelled c = true := by
      rw [List.length_filter_eq_length_iff]
      simp
    simp only [Bounded, HasRoom]
    rw [live_onAcceptFull H, List.length_append, List.length_singleton, H.max]
    rcases Nat.lt_or_ge st.connections.length m with hlt | hge
    · exact iff_of_true (by omega) (.inl hlt)
    · constructor
      · intro h
        refine .inr ?_
        by_contra hne
        have := hall.2 hne
        omega
      · rintro (h | h)
        · omega
        · have hne : (st.kept.filter (!st.isCancelled ·)).length ≠ st.kept.length :=
            fun h' => hall.1 h' h
          omega

end TMainTask

/-- Any run of accepts and connections with `maxconn` set to `m`: every `OnAcceptFull` leaves at
most `m` live connections in the list exactly when it always finds a list that is shorter than `m`,
or a connection that was cancelled before among the last `m` entries. -/
theorem connections_bounded_iff (m : Nat) (hm : 0 < m) (evs : List TMainEvent)
    (hrun : (TMainTask.system.run { maxConnections := m } evs).isSome) :
    TMainTask.system.EachStep TMainTask.Bounded { maxConnections := m } evs ↔
      TMainTask.system.EachStep TMainTask.HasRoom { maxConnections := m } evs := by
  have hinv : TMainTask.system.Always (TMainTask.Linked m) { maxConnections := m } evs :=
    always_of_invariant hrun (fun _ _ _ H h => H.step h) (TMainTask.linked_init m)
  exact hinv.eachStep_iff fun _ ev H => TMainTask.bounded_iff H hm ev

/-- Two connections with room for two. -/
theorem connections_bounded_two :
    TMainTask.system.EachStep TMainTask.Bounded { maxConnections := 2 } [.accept 3, .accept 4] := by
  refine (connections_bounded_iff 2 (by decide) _ rfl).2 ?_
  refine (eachStep_cons rfl).2 ⟨.inl ?_, (eachStep_cons rfl).2 ⟨.inl ?_, eachStep_nil⟩⟩
  · decide
  · decide

/-- Two connections with room for one. -/
theorem connections_not_bounded :
    ∃ st, TMainTask.system.run { maxConnections := 1 } [.accept 3, .accept 4] = some st ∧
      st.live = [0, 1] ∧ st.canceled = 0 :=
  ⟨_, rfl, rfl, rfl⟩

namespace TMainTask

variable {st st' : TMainTask} {m : Nat}

/-! ### Connections that come back -/

/-- A connection that was cancelled is not in the list any more and is not cancelled again,
`Canceled_` counts the connections that were cancelled, and no more connections are taken from the
list than there are live ones beyond the limit. -/
structure EvictedOnce (st : TMainTask) : Prop where
  gone : ∀ c ∈ st.connections, st.isCancelled c = false
  once : ∀ conn ∈ st.conns, conn.cancelled ≤ 1
  counted : st.canceled = st.conns.countP (0 < ·.cancelled)
  displaced : st.victims.length ≤ st.live.length - st.maxConnections

/-- `Send` returns only in connections that were not cancelled. -/
def SendsAlive (st : TMainTask) : TMainEvent → Prop
  | .conn c .sent => st.isCancelled c = false
  | _ => True

theorem displaced_of_gone (h : ∀ c ∈ st.connections, st.isCancelled c = false) :
    st.victims.length ≤ st.live.length - st.maxConnections := by
  have hlive : st.live = st.connections := by
    unfold live
    rw [List.filter_eq_self]
    intro c hc
    simp [h c hc]
  rw [hlive]
  unfold victims
  split
  · exact Nat.zero_le _
  · exact List.length_take_le ..

theorem isCancelled_eq_false {c : Nat} {conn : TConnection} (hc : st.conns[c]? = some conn)
    (h : st.isCancelled c = false) : conn.cancelled = 0 := by
  simpa [isCancelled, hc] using h

theorem EvictedOnce.accept (H : st.Linked m) (hP : st.EvictedOnce) (fd : Nat) :
    (st.onAcceptFull fd).EvictedOnce := by
  have hv0 : ∀ c ∈ st.victims, ∃ conn, st.conns[c]? = some conn ∧ conn.cancelled = 0 := by
    intro c hc
    have hmem := st.victims_sublist.subset hc
    have hconn := List.getElem?_eq_getElem (H.lt c hmem)
    exact ⟨_, hconn, isCancelled_eq_false hconn (hP.gone c hmem)⟩
  have hnodup : st.victims.Nodup := H.nodup.sublist st.victims_sublist
  have hgone : ∀ c ∈ (st.onAcceptFull fd).connections, (st.onAcceptFull fd).isCancelled c =
      false := by
    intro c hc
    rw [onAcceptFull_eq] at hc
    rcases List.mem_append.1 hc with hc | hc
    · have hmem := st.kept_sublist.subset hc
      rw [isCancelled_onAcceptFull fd (H.lt c hmem), hP.gone c hmem]
      simp [not_mem_victims H hc]
    · rw [List.mem_singleton.1 hc, isCancelled_new]
  refine ⟨hgone, ?_, ?_, displaced_of_gone hgone⟩
  · intro conn hconn
    obtain ⟨c, hc⟩ := List.mem_iff_getElem?.1 hconn
    rcases onAcceptFull_cases hc with ⟨conn₀, hc₀, rfl⟩ | ⟨-, rfl⟩
    · show conn₀.cancelled + st.victims.count c ≤ 1
      by_cases hv : c ∈ st.victims
      · obtain ⟨conn₁, hc₁, h0⟩ := hv0 c hv
        rw [hc₀] at hc₁
        cases hc₁
        have := List.nodup_iff_count_le_one.1 hnodup c
        omega
      · rw [List.count_eq_zero_of_not_mem hv]
        exact hP.once conn₀ (List.mem_of_getElem? hc₀)
    · exact Nat.zero_le _
  · rw [onAcceptFull_eq]
    simp [List.countP_append, countP_cancelAll hnodup hv0, hP.counted]

theorem EvictedOnce.touches {c : Nat} {call : TConnectionCall} (hP : st.EvictedOnce)
    (T : Touches st st' c call) (hgone : ∀ c ∈ st'.connections, st'.isCancelled c = false) :
    st'.EvictedOnce := by
  obtain ⟨f, hf, hkeep⟩ := T.conns
  refine ⟨hgone, ?_, ?_, displaced_of_gone hgone⟩
  · rw [hf]
    intro conn hconn
    obtain ⟨c', hc'⟩ := List.mem_iff_getElem?.1 hconn
    rcases getElem?_modify_cases hc' with ⟨-, conn₀, hc₀, rfl⟩ | ⟨-, hc₀⟩
    · rw [(hkeep conn₀).2]
      exact hP.once conn₀ (List.mem_of_getElem? hc₀)
    · exact hP.once conn (List.mem_of_getElem? hc₀)
  · rw [T.canceled, hf, countP_modify_same, hP.counted]
    intro conn
    rw [(hkeep conn).2]

/-- One step keeps the property exactly when it is not the end of a `Send` in a cancelled
connection. -/
theorem evictedOnce_step_iff (H : st.Linked m) (hP : st.EvictedOnce) {ev : TMainEvent}
    (h : system.step st ev = some st') : st'.EvictedOnce ↔ st.SendsAlive ev := by
  rcases step_cases h with ⟨fd, rfl, -, rfl⟩ | ⟨c, call, conn, rfl, -, hs⟩
  · exact iff_of_true (hP.accept H fd) trivial
  · have T := connStep_touches hs
    have hother : call ≠ .sent → st'.EvictedOnce := by
      intro hne
      refine hP.touches T fun c' hc' => ?_
      rw [isCancelled_touches T]
      rw [T.connections] at hc'
      apply hP.gone
      cases call with
      | sent => exact absurd rfl hne
      | complete => exact List.mem_of_mem_erase hc'
      | _ => exact hc'
    cases call with
    | sent =>
      have hconns : st'.connections = st.connections.erase c ++ [c] := T.connections
      constructor
      · intro hP'
        have := hP'.gone c (by simp [hconns])
        rwa [isCancelled_touches T] at this
      · intro hC
        refine hP.touches T ?_
        simp only [isCancelled_touches T, hconns, List.forall_mem_append, List.forall_mem_singleton]
        exact ⟨fun c' hc' => hP.gone c' (List.mem_of_mem_erase hc'), hC⟩
    | _ => exact iff_of_true (hother nofun) trivial

end TMainTask

/-- Any run of accepts and connections: a cancelled connection never comes back into the list and is
never cancelled again, `Canceled_` is the number of the connections that were cancelled, and no live
connection has to make room for one of them, exactly when no `Send` of a cancelled connection
returns. -/
theorem connections_evicted_once_iff (m : Nat) (evs : List TMainEvent)
    (hrun : (TMainTask.system.run { maxConnections := m } evs).isSome) :
    TMainTask.system.Always TMainTask.EvictedOnce { maxConnections := m } evs ↔
      TMainTask.system.EachStep TMainTask.SendsAlive { maxConnections := m } evs := by
  refine always_iff_eachStep (I := TMainTask.Linked m) hrun ?_ ?_ (TMainTask.linked_init m) ?_
  · intro st ev st' H h
    exact H.step h
  · intro st ev st' H hP h
    exact TMainTask.evictedOnce_step_iff H hP h
  · exact ⟨by simp, by simp, rfl, by simp [TMainTask.victims]⟩

/-- With room for one, the third connection takes the place of the first. -/
theorem connections_evicted_idle :
    TMainTask.system.Always TMainTask.EvictedOnce { maxConnections := 1 }
      [.accept 3, .conn 0 .start, .accept 4, .accept 5, .conn 0 .complete] := by
  refine (connections_evicted_once_iff 1 _ rfl).2 ?_
  exact (eachStep_cons rfl).2 ⟨trivial, (eachStep_cons rfl).2 ⟨trivial,
    (eachStep_cons rfl).2 ⟨trivial, (eachStep_cons rfl).2 ⟨trivial,
      (eachStep_cons rfl).2 ⟨trivial, eachStep_nil⟩⟩⟩⟩⟩

/-- The first connection has been cancelled when its `Send` returns. It comes back into the list and
is cancelled once more; until then it takes the place of a live one, so that both of the others are
cancelled where one would have been enough. -/
theorem connections_evicted_twice :
    ∃ st, TMainTask.system.run { maxConnections := 1 }
        [.accept 3, .conn 0 .start, .conn 0 .send, .accept 4, .accept 5, .conn 0 .sent] = some st ∧
      st.connections = [1, 2, 0] ∧ st.isCancelled 0 = true ∧
      ∃ st', TMainTask.system.run st [.accept 6, .accept 7] = some st' ∧
        st'.conns.map TConnection.cancelled = [2, 1, 1, 0, 0] ∧ st'.canceled = 4 :=
  ⟨_, rfl, rfl, rfl, _, rfl, rfl, rfl⟩

end Balancer
