import Balancer.Modules.Spdy.Module
import Balancer.Theory.Objects

/-!
# Who owns the streams of a SPDY connection

Every `TConnection` has two owners in turn: the holder in `Loop`, until the stream is registered in
`connmap`, and its coroutine. `Counted` says how often each one has been destroyed: once if its
coroutine has ended, and once if it was created for a stream that `Loop` rejected. From it follows
when no stream is used after its destruction (`streams_owned_iff`). Nobody waits for the coroutines
at the end of `Loop`, so they are over by then only if all of them happened to end before
(`loop_joined_iff`).
-/

namespace Balancer.Spdy

open Runs Objects System
open Option (ite_none_right_eq_some isSome_iff_exists map_eq_some_iff map_some)

namespace TProto

variable {st st' : TProto} {ev : TProtoEvent}

/-! ### What a step does to the owners -/

/-- The steps, by what they do to the connections, to `connmap` and to the position of `Loop`. -/
inductive Effect (st st' : TProto) : TProtoEvent → Prop where
  | opened {streamID : Nat} {fin : Bool} {headers : TRequest} (reading : st.loop = .reading)
      (unknown : st.connmap streamID = none)
        (conns : st'.conns = st.conns ++ [⟨streamID, headers, .created, 0⟩])
      (connmap : st'.connmap = Function.update st.connmap streamID (some st.conns.length))
      (loop : st'.loop = .reading) : Effect st st' (.frame (.synStream streamID fin headers))
  | rejected {streamID connptr : Nat} {fin : Bool} {headers : TRequest}
    (reading : st.loop = .reading)
      (known : st.connmap streamID = some connptr)
      (conns : st'.conns = st.conns ++ [⟨streamID, headers, .created, 0⟩])
        (connmap : st'.connmap = st.connmap)
      (loop : st'.loop = .sendingRst (some st.conns.length)) :
      Effect st st' (.frame (.synStream streamID fin headers))
  | passed {f : TFrame} (reading : st.loop = .reading) (other : ∀ id fin headers, f ≠
    .synStream id fin headers)
      (conns : st'.conns = st.conns) (connmap : st'.connmap = st.connmap)
      (loop : st'.loop = .reading ∨ st'.loop = .sendingRst none) : Effect st st' (.frame f)
  | left {ev : TProtoEvent} (event : ev = .inputEnd ∨ ev = .fail) (reading : st.loop = .reading)
      (conns : st'.conns = st.conns) (connmap : st'.connmap = st.connmap)
        (loop : st'.loop = .ended) :
      Effect st st' ev
  | released {ev : TProtoEvent} {conn : Option Nat} (sending : st.loop = .sendingRst conn)
      (conns : st'.conns = (conn.elim st st.destroy).conns) (connmap : st'.connmap = st.connmap)
      (loop : ev = .sent ∧ st'.loop = .reading ∨ ev = .sendFailed ∧ st'.loop = .ended) :
      Effect st st' ev
  | started {k : Nat} (created : st.contAt k = some .created)
      (conns : st'.conns = st.conns.modify k fun c => { c with cont := .running })
      (connmap : st'.connmap = st.connmap) (loop : st'.loop = st.loop) : Effect st st' (.start k)
  | worked {ev : TProtoEvent} {k : Nat} (event : ev = .recv k ∨ ev = .send k)
      (running : st.contAt k = some .running) (conns : st'.conns = st.conns)
      (connmap : st'.connmap = st.connmap) (loop : st'.loop = st.loop) : Effect st st' ev
  | finished {k : Nat} (running : st.contAt k = some .running)
      (conns : st'.conns =
        st.conns.modify k fun c => { c with cont := .ended, destroyed := c.destroyed + 1 })
      (connmap : st'.connmap = st.connmap) (loop : st'.loop = st.loop) : Effect st st' (.finish k)

theorem create_own (st : TProto) (streamID : Nat) (fin : Bool) (headers : TRequest) :
    (st.create streamID fin headers).conns = st.conns ++ [⟨streamID, headers, .created, 0⟩] ∧
      (st.create streamID fin headers).connmap = st.connmap ∧
      (st.create streamID fin headers).loop = st.loop := by
  cases fin <;> exact ⟨rfl, rfl, rfl⟩

theorem handle_effect (h : st.loop = .reading) (f : TFrame) :
    Effect st (st.handle f) (.frame f) := by
  cases f with
  | synStream streamID fin headers =>
    obtain ⟨hconns, hmap, hloop⟩ := st.create_own streamID fin headers
    cases hid : st.connmap streamID with
    | none =>
      have hh : st.handle (.synStream streamID fin headers) = { st.create streamID fin headers with
          connmap := Function.update st.connmap streamID (some st.conns.length) } := by
        simp only [handle, hid]
      exact .opened h hid (hh ▸ hconns) (hh ▸ rfl) (hh ▸ hloop.trans h)
    | some connptr =>
      have hh : st.handle (.synStream streamID fin headers) =
          { (st.create streamID fin headers).finishRead connptr with
            loop := .sendingRst (some st.conns.length) } := by
        simp only [handle, hid]
      exact .rejected h hid (hh ▸ hconns) (hh ▸ hmap) (hh ▸ rfl)
  | rstStream streamID =>
    simp only [handle]
    cases st.connmap streamID with
    | none | some conn => exact .passed h (by simp) rfl rfl (.inl h)
  | data streamID data fin =>
    simp only [handle]
    cases st.connmap streamID with
    | none => exact .passed h (by simp) rfl rfl (.inr rfl)
    | some conn => cases fin <;> exact .passed h (by simp) rfl rfl (.inl h)
  | other => exact .passed h (by simp) rfl rfl (.inl h)

theorem recv_own (st : TProto) (k : Nat) :
    (st.recv k).conns = st.conns ∧ (st.recv k).connmap = st.connmap ∧
      (st.recv k).loop = st.loop := by
  unfold recv
  split <;> exact ⟨rfl, rfl, rfl⟩

theorem leaveSendRst_own {loop : TLoopPosition} (h : st.leaveSendRst loop = some st') :
    ∃ conn, st.loop = .sendingRst conn ∧ st'.conns = (conn.elim st st.destroy).conns ∧
      st'.connmap = st.connmap ∧ st'.loop = loop := by
  unfold leaveSendRst at h
  split at h
  · next conn hl =>
    cases h
    exact ⟨conn, hl, rfl, by cases conn <;> rfl, rfl⟩
  · cases h

theorem step_effect (h : system.step st ev = some st') : Effect st st' ev := by
  cases ev with
  | frame f =>
    obtain ⟨hl, h⟩ := ite_none_right_eq_some.1 h
    cases h
    exact handle_effect hl f
  | inputEnd =>
    obtain ⟨hl, h⟩ := ite_none_right_eq_some.1 h
    cases h
    exact .left (.inl rfl) hl rfl rfl rfl
  | fail =>
    obtain ⟨hl, h⟩ := ite_none_right_eq_some.1 h
    cases h
    exact .left (.inr rfl) hl rfl rfl rfl
  | sent =>
    obtain ⟨conn, hl, hconns, hmap, hloop⟩ := leaveSendRst_own h
    exact .released hl hconns hmap (.inl ⟨rfl, hloop⟩)
  | sendFailed =>
    obtain ⟨conn, hl, hconns, hmap, hloop⟩ := leaveSendRst_own h
    exact .released hl hconns hmap (.inr ⟨rfl, hloop⟩)
  | start k =>
    obtain ⟨hc, h⟩ := ite_none_right_eq_some.1 h
    cases h
    exact .started hc rfl rfl rfl
  | recv k =>
    obtain ⟨hc, h⟩ := ite_none_right_eq_some.1 h
    cases h
    obtain ⟨hconns, hmap, hloop⟩ := st.recv_own k
    exact .worked (.inl rfl) hc hconns hmap hloop
  | send k =>
    obtain ⟨hc, h⟩ := ite_none_right_eq_some.1 h
    cases h
    exact .worked (.inr rfl) hc rfl rfl rfl
  | finish k =>
    obtain ⟨hc, h⟩ := ite_none_right_eq_some.1 h
    cases h
    refine .finished hc ?_ rfl rfl
    simp [destroy, modifyConn, List.modify_modify_eq, Function.comp_def]

/-! ### How often a connection was destroyed -/

/-- The connection `k` is the one that `connmap` has for its stream. -/
def Registered (st : TProto) (k : Nat) (c : TConnection) : Prop := st.connmap c.streamID = some k

instance (st : TProto) (k : Nat) (c : TConnection) : Decidable (st.Registered k c) := by
  unfold Registered; infer_instance

/-- A connection is destroyed once when its coroutine ends, and once when it was not registered and
`Loop` has left its `SendRst`. -/
structure Counted (st : TProto) : Prop where
  destroyed : ∀ k c, st.conns[k]? = some c → c.destroyed =
    (if c.cont = .ended then 1 else 0) +
      (if st.Registered k c ∨ st.loop = .sendingRst (some k) then 0 else 1)
  known : ∀ id k, st.connmap id = some k → ∃ c, st.conns[k]? = some c ∧ c.streamID = id
  held : ∀ k, st.loop = .sendingRst (some k) → ∃ c, st.conns[k]? = some c ∧ ¬st.Registered k c

theorem Counted.lt (H : st.Counted) {id k : Nat} (h : st.connmap id = some k) :
    k < st.conns.length := by
  obtain ⟨c, hc, -⟩ := H.known id k h
  exact (List.getElem?_eq_some_iff.1 hc).1

/-- A new entry does not change which of the old connections are registered. -/
theorem registered_update {id : Nat} (hid : st.connmap id = none)
    (hmap : st'.connmap = Function.update st.connmap id (some st.conns.length)) {k : Nat}
    {c : TConnection} (hk : k < st.conns.length) : st'.Registered k c ↔ st.Registered k c := by
  unfold Registered
  rw [hmap, Function.update_apply]
  split
  · next heq =>
    rw [heq, hid]
    simp only [Option.some.injEq, reduceCtorEq, iff_false]
    omega
  · rfl

/-- A step that changes one connection at most, and no stream. -/
theorem Counted.modify (H : st.Counted) {k : Nat} {f : TConnection → TConnection}
    (hconns : st'.conns = st.conns.modify k f) (hid : ∀ c, (f c).streamID = c.streamID)
    (hmap : st'.connmap = st.connmap)
    (hheld : ∀ j, st'.loop = .sendingRst (some j) → st.loop = .sendingRst (some j))
    (hloop : ∀ j, j ≠ k → st.loop = .sendingRst (some j) → st'.loop = .sendingRst (some j))
    (hk : ∀ c, st.conns[k]? = some c → (f c).destroyed = (if (f c).cont = .ended then 1 else 0) +
      (if st.Registered k c ∨ st'.loop = .sendingRst (some k) then 0 else 1)) : st'.Counted := by
  have hreg : ∀ j c, st'.Registered j c ↔ st.Registered j c := by
    intro j c
    unfold Registered
    rw [hmap]
  have hget : ∀ (j : Nat) (c : TConnection), st.conns[j]? = some c →
      ∃ c', st'.conns[j]? = some c' ∧ c'.streamID = c.streamID := by
    intro j c hc
    rw [hconns]
    exact exists_getElem?_modify hid hc
  refine ⟨?_, ?_, ?_⟩
  · intro j c hc
    rw [hconns] at hc
    rcases getElem?_modify_cases hc with ⟨rfl, c₀, hc₀, rfl⟩ | ⟨hjk, hc⟩
    · have hr : st'.Registered j (f c₀) ↔ st.Registered j c₀ := by
        rw [hreg]
        unfold Registered
        rw [hid]
      simp only [hk c₀ hc₀, hr]
    · have hl : st'.loop = .sendingRst (some j) ↔ st.loop = .sendingRst (some j) :=
        ⟨hheld j, hloop j hjk⟩
      simp only [H.destroyed j c hc, hreg, hl]
  · intro id j hj
    rw [hmap] at hj
    obtain ⟨c, hc, rfl⟩ := H.known id j hj
    exact hget j c hc
  · intro j hj
    obtain ⟨c, hc, hne⟩ := H.held j (hheld j hj)
    obtain ⟨c', hc', hid'⟩ := hget j c hc
    refine ⟨c', hc', ?_⟩
    rw [hreg]
    unfold Registered at hne ⊢
    rwa [hid']

theorem Counted.same (H : st.Counted) (hconns : st'.conns = st.conns)
    (hmap : st'.connmap = st.connmap)
    (hloop : ∀ j, st'.loop = .sendingRst (some j) ↔ st.loop = .sendingRst (some j)) :
    st'.Counted := by
  have hconns' : st'.conns = st.conns.modify 0 id := by rw [hconns, List.modify_id]
  refine H.modify hconns' (fun _ => rfl) hmap (fun j => (hloop j).1) (fun j _ => (hloop j).2) ?_
  intro c hc
  simp only [hloop]
  exact H.destroyed 0 c hc

/-- A new connection, which is registered or held by `Loop`. -/
theorem Counted.concat (H : st.Counted) {c : TConnection} (hcont : c.cont = .created)
    (hc : c.destroyed = 0) (hreading : st.loop = .reading) (hconns : st'.conns = st.conns ++ [c])
    (hreg : ∀ k, k < st.conns.length → ∀ c, st'.Registered k c ↔ st.Registered k c)
    (hknown : ∀ id k, st'.connmap id = some k →
      st.connmap id = some k ∨ k = st.conns.length ∧ c.streamID = id)
    (hnew : st'.loop = .reading ∧ st'.Registered st.conns.length c ∨
      st'.loop = .sendingRst (some st.conns.length) ∧ ¬st'.Registered st.conns.length c) :
      st'.Counted := by
  have hlen : st'.conns[st.conns.length]? = some c := by rw [hconns]; simp
  have hheld : ∀ k, st'.loop = .sendingRst (some k) → k = st.conns.length := by
    intro k hk
    rcases hnew with ⟨hl, -⟩ | ⟨hl, -⟩
    · rw [hl] at hk
      cases hk
    · rw [hl] at hk
      cases hk
      rfl
  refine ⟨?_, ?_, ?_⟩
  · intro k c' hc'
    rw [hconns] at hc'
    rcases getElem?_concat_cases hc' with ⟨hk, hc'⟩ | ⟨rfl, rfl⟩
    · have hne : st'.loop ≠ .sendingRst (some k) := by
        intro hl
        have := hheld k hl
        omega
      simp [H.destroyed k c' hc', hreg k hk, hreading, hne]
    · rw [hc, hcont]
      rcases hnew with ⟨-, hr⟩ | ⟨hl, -⟩
      · simp [hr]
      · simp [hl]
  · intro id k hk
    rcases hknown id k hk with hk | ⟨rfl, hid⟩
    · obtain ⟨c', hc', hid⟩ := H.known id k hk
      refine ⟨c', ?_, hid⟩
      rw [hconns, List.getElem?_append_left (H.lt hk)]
      exact hc'
    · exact ⟨c, hlen, hid⟩
  · intro k hk
    obtain rfl := hheld k hk
    rcases hnew with ⟨hl, -⟩ | ⟨-, hr⟩
    · rw [hl] at hk
      cases hk
    · exact ⟨c, hlen, hr⟩

theorem Counted.step (H : st.Counted) (h : system.step st ev = some st') : st'.Counted := by
  cases step_effect h with
  | @opened streamID fin headers reading unknown conns connmap loop =>
    refine H.concat rfl rfl reading conns (fun k hk c => registered_update unknown connmap hk) ?_ ?_
    · intro id k hk
      rw [connmap, Function.update_apply] at hk
      split at hk
      · next heq =>
        cases hk
        exact .inr ⟨rfl, heq.symm⟩
      · exact .inl hk
    · refine .inl ⟨loop, ?_⟩
      unfold Registered
      rw [connmap, Function.update_self]
  | @rejected streamID connptr fin headers reading known conns connmap loop =>
    have hreg : ∀ k c, st'.Registered k c ↔ st.Registered k c := by
      intro k c
      unfold Registered
      rw [connmap]
    refine H.concat rfl rfl reading conns (fun k _ c => hreg k c) ?_ ?_
    · intro id k hk
      rw [connmap] at hk
      exact .inl hk
    · refine .inr ⟨loop, ?_⟩
      rw [hreg]
      intro hr
      exact absurd (H.lt hr) (Nat.lt_irrefl _)
  | passed reading other conns connmap loop =>
    refine H.same conns connmap fun j => ?_
    rw [reading]
    rcases loop with loop | loop <;> simp [loop]
  | left event reading conns connmap loop =>
    exact H.same conns connmap fun j => by simp [reading, loop]
  | @released ev conn sending conns connmap loop =>
    have hne : ∀ j, st'.loop ≠ .sendingRst (some j) := by
      intro j
      rcases loop with ⟨-, loop⟩ | ⟨-, loop⟩ <;> simp [loop]
    cases conn with
    | none => exact H.same conns connmap fun j => by simp [hne j, sending]
    | some k =>
      have conns : st'.conns = st.conns.modify k fun c => { c with destroyed := c.destroyed + 1 } :=
        conns
      refine H.modify conns (fun _ => rfl) connmap (fun j hj => absurd hj (hne j)) ?_ ?_
      · intro j hjk hj
        rw [sending] at hj
        cases hj
        exact absurd rfl hjk
      · intro c hc
        obtain ⟨c', hc', hr⟩ := H.held k sending
        rw [hc] at hc'
        cases hc'
        show c.destroyed + 1 = _
        rw [H.destroyed k c hc, sending]
        simp [hr, hne k]
  | @started k created conns connmap loop =>
    refine H.modify conns (fun _ => rfl) connmap (fun j hj => loop ▸ hj) (fun j _ hj => loop ▸ hj)
      ?_
    intro c hc
    show c.destroyed = _
    rw [H.destroyed k c hc, loop]
    have hcont : c.cont = .created := by simpa [contAt, hc] using created
    simp [hcont]
  | worked event running conns connmap loop => exact H.same conns connmap fun j => by rw [loop]
  | @finished k running conns connmap loop =>
    refine H.modify conns (fun _ => rfl) connmap (fun j hj => loop ▸ hj) (fun j _ hj => loop ▸ hj)
      ?_
    intro c hc
    show c.destroyed + 1 = _
    rw [H.destroyed k c hc, loop]
    have hcont : c.cont = .running := by simpa [contAt, hc] using running
    simp only [hcont, reduceCtorEq, if_false, if_true]
    omega

/-- A connection keeps its stream, and its entry if it has one. -/
theorem kept_step (h : system.step st ev = some st') {k : Nat} {c : TConnection}
    (hc : st.conns[k]? = some c) :
    ∃ c', st'.conns[k]? = some c' ∧ (st'.Registered k c' ↔ st.Registered k c) := by
  have hk := (List.getElem?_eq_some_iff.1 hc).1
  have hsame : st'.conns = st.conns → st'.connmap = st.connmap →
      ∃ c', st'.conns[k]? = some c' ∧ (st'.Registered k c' ↔ st.Registered k c) := by
    intro hconns hmap
    refine ⟨c, hconns ▸ hc, ?_⟩
    unfold Registered
    rw [hmap]
  have hmodify : ∀ j (f : TConnection → TConnection), st'.conns = st.conns.modify j f →
      (∀ c, (f c).streamID = c.streamID) → st'.connmap = st.connmap →
      ∃ c', st'.conns[k]? = some c' ∧ (st'.Registered k c' ↔ st.Registered k c) := by
    intro j f hconns hid hmap
    obtain ⟨c', hc', hid'⟩ := exists_getElem?_modify hid hc
    refine ⟨c', hconns ▸ hc', ?_⟩
    unfold Registered
    rw [hmap, hid']
  cases step_effect h with
  | opened reading unknown conns connmap loop =>
    refine ⟨c, ?_, registered_update unknown connmap hk⟩
    rw [conns, List.getElem?_append_left hk, hc]
  | rejected reading known conns connmap loop =>
    refine ⟨c, ?_, ?_⟩
    · rw [conns, List.getElem?_append_left hk, hc]
    · unfold Registered
      rw [connmap]
  | passed reading other conns connmap loop | left event reading conns connmap loop =>
    exact hsame conns connmap
  | @released ev conn sending conns connmap loop =>
    cases conn with
    | none => exact hsame conns connmap
    | some j =>
      exact hmodify j (fun c => { c with destroyed := c.destroyed + 1 }) conns (fun _ => rfl)
        connmap
  | started created conns connmap loop => exact hmodify _ _ conns (fun _ => rfl) connmap
  | worked event running conns connmap loop => exact hsame conns connmap
  | finished running conns connmap loop => exact hmodify _ _ conns (fun _ => rfl) connmap

/-- A connection that was not registered when it was created never is. -/
theorem kept_run {evs : List TProtoEvent} (h : system.run st evs = some st') {k : Nat}
    {c : TConnection} (hc : st.conns[k]? = some c) :
    ∃ c', st'.conns[k]? = some c' ∧ (st'.Registered k c' ↔ st.Registered k c) := by
  induction evs generalizing st c with
  | nil =>
    cases h
    exact ⟨c, hc, Iff.rfl⟩
  | cons ev evs ih =>
    obtain ⟨st₁, h₁, -⟩ := run_cons_isSome (isSome_iff_exists.2 ⟨st', h⟩)
    rw [run_cons h₁] at h
    obtain ⟨c₁, hc₁, hr₁⟩ := kept_step h₁ hc
    obtain ⟨c', hc', hr'⟩ := ih h hc₁
    exact ⟨c', hc', hr'.trans hr₁⟩

/-! ### Streams that are used while they live -/

def Live (st : TProto) (k : Nat) : Prop := ∃ c, st.conns[k]? = some c ∧ c.destroyed = 0

/-- While there is a `connmap`, its entries are not destroyed, and no connection is destroyed
twice. -/
def Sound (st : TProto) : Prop :=
  (st.loop ≠ .ended → ∀ id k, st.connmap id = some k → st.Live k) ∧
    ∀ c ∈ st.conns, c.destroyed ≤ 1

/-- Frames are dispatched to connections that are not destroyed, and no coroutine starts on another
one. -/
def UsesLive (st : TProto) : TProtoEvent → Prop
  | .frame (.synStream id _ _) | .frame (.rstStream id) | .frame (.data id _ _) =>
    ∀ k, st.connmap id = some k → st.Live k
  | .start k => st.Live k
  | _ => True

/-- `Loop` and all of the coroutines are over. -/
def Complete (st : TProto) : Prop :=
  st.loop = .ended ∧ ∀ c ∈ st.conns, c.cont = .ended

/-- No stream is opened twice, and none ends before `Loop`. -/
def OwnedOnce (st : TProto) : TProtoEvent → Prop
  | .frame (.synStream id _ _) => st.connmap id = none
  | .finish _ => st.loop = .ended
  | _ => True

/-- A run on a fresh connection in which every stream is used only while it lives and destroyed
exactly once. -/
structure Owned (evs : List TProtoEvent) (st : TProto) : Prop where
  sound : system.Always Sound {} evs
  live : system.EachStep UsesLive {} evs
  once : st.Complete → ∀ c ∈ st.conns, c.destroyed = 1

theorem counted_init : Counted {} :=
  ⟨by simp, by simp, by simp⟩

/-- All streams are registered, and run for as long as `Loop` does. -/
structure Orderly (st : TProto) : Prop where
  counted : st.Counted
  registered : ∀ k c, st.conns[k]? = some c → st.Registered k c
  running : st.loop ≠ .ended → ∀ (k : Nat) (c : TConnection), st.conns[k]? = some c →
    c.cont ≠ .ended

theorem Orderly.destroyed (H : st.Orderly) {k : Nat} {c : TConnection}
    (hc : st.conns[k]? = some c) : c.destroyed = if c.cont = .ended then 1 else 0 := by
  rw [H.counted.destroyed k c hc]
  simp [H.registered k c hc]

theorem Orderly.sound (H : st.Orderly) : st.Sound := by
  constructor
  · intro hl id k hk
    obtain ⟨c, hc, -⟩ := H.counted.known id k hk
    refine ⟨c, hc, ?_⟩
    simp [H.destroyed hc, H.running hl k c hc]
  · intro c hc
    obtain ⟨k, hc⟩ := List.mem_iff_getElem?.1 hc
    rw [H.destroyed hc]
    split <;> omega

theorem Orderly.usesLive (H : st.Orderly) (h : system.step st ev = some st') : st.UsesLive ev := by
  have hframe : ∀ f, ev = .frame f → ∀ id k, st.connmap id = some k → st.Live k := by
    rintro f rfl id k hk
    obtain ⟨hl, -⟩ := ite_none_right_eq_some.1 h
    exact H.sound.1 (by simp [hl]) id k hk
  cases ev with
  | frame f =>
    cases f with
    | synStream id fin headers | rstStream id | data id data fin => exact hframe _ rfl id
    | other => trivial
  | start k =>
    obtain ⟨hcont, -⟩ := ite_none_right_eq_some.1 h
    obtain ⟨c, hc, hcont⟩ := map_eq_some_iff.1 hcont
    refine ⟨c, hc, ?_⟩
    simp [H.destroyed hc, hcont]
  | _ => trivial

theorem contAt_modify {j : Nat} {f : TConnection → TConnection}
    (h : st'.conns = st.conns.modify j f) (k : Nat) :
    st'.contAt k = if j = k then st.conns[k]?.map fun c => (f c).cont else st.contAt k := by
  rw [contAt, h, List.getElem?_modify]
  split
  · cases st.conns[k]? <;> rfl
  · cases hk : st.conns[k]? <;> simp [contAt, hk]

/-- The coroutine of a connection ends in its last step only. -/
theorem ended_step (h : system.step st ev = some st') (k : Nat) :
    st'.contAt k = some .ended ↔ ev = .finish k ∨ st.contAt k = some .ended := by
  have hsame : st'.conns = st.conns → ev ≠ .finish k →
      (st'.contAt k = some .ended ↔ ev = .finish k ∨ st.contAt k = some .ended) := by
    intro hconns hev
    rw [contAt, hconns, ← contAt, or_iff_right hev]
  have hnew : ∀ id headers, st'.conns = st.conns ++ [⟨id, headers, .created, 0⟩] →
      (st'.contAt k = some .ended ↔ st.contAt k = some .ended) := by
    intro id headers hconns
    rw [contAt, hconns, contAt, List.getElem?_append]
    split
    · rfl
    · next hk =>
      rw [List.getElem?_eq_none (Nat.not_lt.1 hk)]
      rcases hi : k - st.conns.length with _ | i <;> simp
  cases step_effect h with
  | opened reading unknown conns | rejected reading known conns =>
    exact (hnew _ _ conns).trans (or_iff_right (by simp)).symm
  | passed reading other conns => exact hsame conns (by simp)
  | left event reading conns => exact hsame conns (by rcases event with rfl | rfl <;> simp)
  | @released ev conn sending conns connmap loop =>
    have hev : ev ≠ .finish k := by rcases loop with ⟨rfl, -⟩ | ⟨rfl, -⟩ <;> simp
    cases conn with
    | none => exact hsame conns hev
    | some j =>
      rw [contAt_modify conns, or_iff_right hev]
      split
      · rfl
      · rfl
  | @started j created conns =>
    rw [contAt_modify conns, or_iff_right (by simp)]
    split
    · next hj =>
      subst hj
      rw [created]
      obtain ⟨c, hc, -⟩ := map_eq_some_iff.1 created
      simp [hc]
    · rfl
  | worked event running conns => exact hsame conns (by rcases event with rfl | rfl <;> simp)
  | @finished j running conns =>
    rw [contAt_modify conns, TProtoEvent.finish.injEq]
    split
    · next hj =>
      subst hj
      obtain ⟨c, hc, -⟩ := map_eq_some_iff.1 running
      simp [hc]
    · next hj => rw [or_iff_right hj]

/-- Only a frame that opens a stream makes a new connection; it is registered unless its stream was
known. -/
theorem new_step (h : system.step st ev = some st') {k : Nat} {c' : TConnection}
    (hc' : st'.conns[k]? = some c') (hk : st.conns.length ≤ k) :
    ∃ id fin headers, ev = .frame (.synStream id fin headers) ∧
      (st.connmap id = none → st'.Registered k c') := by
  have hlt := (List.getElem?_eq_some_iff.1 hc').1
  cases step_effect h with
  | @opened id fin headers reading unknown conns connmap loop =>
    refine ⟨id, fin, headers, rfl, fun _ => ?_⟩
    rw [conns] at hc'
    rcases getElem?_concat_cases hc' with ⟨hk', -⟩ | ⟨rfl, rfl⟩
    · omega
    · unfold Registered
      rw [connmap, Function.update_self]
  | @rejected id connptr fin headers reading known conns connmap loop =>
    refine ⟨id, fin, headers, rfl, fun hid => ?_⟩
    rw [known] at hid
    cases hid
  | passed _ _ conns | left _ _ conns => rw [conns] at hlt; omega
  | @released ev conn _ conns =>
    rw [conns] at hlt
    cases conn with
    | none => exact absurd hlt (Nat.not_lt.2 hk)
    | some j =>
      simp only [Option.elim_some, destroy, modifyConn, List.length_modify] at hlt
      omega
  | started _ conns => rw [conns, List.length_modify] at hlt; omega
  | worked _ _ conns => rw [conns] at hlt; omega
  | finished _ conns => rw [conns, List.length_modify] at hlt; omega

/-- `Loop` does not go on after its end. -/
theorem loop_step (h : system.step st ev = some st') (hl : st.loop = .ended) :
    st'.loop = .ended := by
  cases step_effect h with
  | opened reading | rejected reading | passed reading | left event reading => simp [hl] at reading
  | released sending => simp [hl] at sending
  | started _ _ _ loop | worked _ _ _ _ loop | finished _ _ _ loop => exact loop.trans hl

theorem Orderly.step (H : st.Orderly) (hC : st.OwnedOnce ev) (h : system.step st ev = some st') :
    st'.Orderly := by
  refine ⟨H.counted.step h, ?_, ?_⟩
  · intro k c' hc'
    rcases Nat.lt_or_ge k st.conns.length with hk | hk
    · obtain ⟨c₁, hc₁, hr⟩ := kept_step h (List.getElem?_eq_getElem hk)
      rw [hc'] at hc₁
      cases hc₁
      exact hr.2 (H.registered k _ (List.getElem?_eq_getElem hk))
    · obtain ⟨id, fin, headers, rfl, hr⟩ := new_step h hc' hk
      exact hr hC
  · intro hl k c' hc' hcont
    have hl' : st.loop ≠ .ended := fun hl' => hl (loop_step h hl')
    have hended : st'.contAt k = some .ended := by rw [contAt, hc', ← hcont]; rfl
    rcases (ended_step h k).1 hended with rfl | hended
    · exact hl' hC
    · obtain ⟨c, hc, hcont⟩ := map_eq_some_iff.1 hended
      exact H.running hl' k c hc hcont

theorem owned_of_eachStep {evs : List TProtoEvent} (hrun : system.run {} evs = some st)
    (hC : system.EachStep OwnedOnce {} evs) : Owned evs st := by
  have hsome := isSome_iff_exists.2 ⟨st, hrun⟩
  have hinv : system.Always Orderly {} evs :=
    hC.always hsome (fun _ _ _ H hC h => H.step hC h) ⟨counted_init, by simp, by simp⟩
  refine ⟨fun pre st' hpre hst' => (hinv pre st' hpre hst').sound, ?_, ?_⟩
  · exact hinv.eachStep hsome fun _ _ _ H h => H.usesLive h
  · intro hdone c hc
    obtain ⟨k, hk⟩ := List.mem_iff_getElem?.1 hc
    rw [(hinv.last hrun).destroyed hk, hdone.2 c hc]
    rfl

theorem counted_run {evs : List TProtoEvent} (hrun : system.run {} evs = some st) : st.Counted :=
  (always_of_invariant (isSome_iff_exists.2 ⟨st, hrun⟩) (fun _ _ _ H h => H.step h)
    counted_init).last hrun

/-- In the end a connection that was never registered has been destroyed twice. -/
theorem registered_of_once {evs : List TProtoEvent} {st₁ : TProto} (H : st.Counted)
    (hdone : st.Complete) (honce : ∀ c ∈ st.conns, c.destroyed = 1)
    (hrun : system.run st₁ evs = some st) {k : Nat}
    {c : TConnection} (hc : st₁.conns[k]? = some c) : st₁.Registered k c := by
  obtain ⟨c', hc', hr⟩ := kept_run hrun hc
  rw [← hr]
  by_contra hne
  have hmem := List.mem_of_getElem? hc'
  have hcount := H.destroyed k c' hc'
  rw [honce c' hmem, hdone.2 c' hmem, hdone.1] at hcount
  simp [hne] at hcount

theorem eachStep_of_owned {evs : List TProtoEvent} (hrun : system.run {} evs = some st)
    (hdone : st.Complete) (hO : Owned evs st) : system.EachStep OwnedOnce {} evs := by
  intro pre ev st₁ hpre hst₁
  obtain ⟨st₂, post, hstep, hst₂, hpost⟩ := run_around hpre hst₁ hrun
  have hreg : ∀ k c, st₂.conns[k]? = some c → st₂.Registered k c := by
    intro k c hc
    exact registered_of_once (counted_run hrun) hdone (hO.once hdone) hpost hc
  cases step_effect hstep with
  | opened reading unknown conns connmap loop => exact unknown
  | @rejected id connptr fin headers reading known conns connmap loop =>
    have hr := hreg st₁.conns.length ⟨id, headers, .created, 0⟩ (by rw [conns]; simp)
    unfold Registered at hr
    rw [connmap] at hr
    exact absurd ((counted_run hst₁).lt hr) (Nat.lt_irrefl _)
  | @passed f reading other conns connmap loop =>
    cases f with
    | synStream id fin headers => exact absurd rfl (other id fin headers)
    | _ => trivial
  | left event reading conns connmap loop => rcases event with rfl | rfl <;> trivial
  | released sending conns connmap loop => rcases loop with ⟨rfl, -⟩ | ⟨rfl, -⟩ <;> trivial
  | started created conns connmap loop => trivial
  | worked event running conns connmap loop => rcases event with rfl | rfl <;> trivial
  | @finished k running conns connmap loop =>
    -- the entry of the connection is still there
    by_contra hl
    obtain ⟨c, hc, -⟩ := map_eq_some_iff.1 running
    have hc₂ : st₂.conns[k]? = some { c with cont := .ended, destroyed := c.destroyed + 1 } := by
      rw [conns, List.getElem?_modify, hc]
      simp
    have hne : st₂.loop ≠ .ended := fun h => hl (loop.symm.trans h)
    obtain ⟨c', hc', hlive⟩ := (hO.sound _ _ hpre hst₂).1 hne _ _ (hreg k _ hc₂)
    rw [hc₂] at hc'
    cases hc'
    cases hlive

end TProto

/-- Any run of `Loop` and of the coroutines of the streams: if no stream is opened twice and none
ends before `Loop` does, then no stream is used after its destruction and each one is destroyed
exactly once. A run that is complete has this property in no other case. -/
theorem streams_owned_iff (evs : List TProtoEvent) (st : TProto)
    (hrun : TProto.system.run {} evs = some st) :
    (TProto.system.EachStep TProto.OwnedOnce {} evs → TProto.Owned evs st) ∧
      (st.Complete → TProto.Owned evs st → TProto.system.EachStep TProto.OwnedOnce {} evs) :=
  ⟨TProto.owned_of_eachStep hrun, TProto.eachStep_of_owned hrun⟩

/-- One stream, which outlives `Loop`. -/
theorem streams_owned_single :
    ∃ st, TProto.system.run {} [.frame (.synStream 1 true {}), .start 0, .inputEnd, .finish 0] =
      some st ∧
      st.Complete ∧
      TProto.Owned [.frame (.synStream 1 true {}), .start 0, .inputEnd, .finish 0] st := by
  refine ⟨_, rfl, ⟨rfl, by decide⟩, (streams_owned_iff _ _ rfl).1 ?_⟩
  refine (eachStep_cons rfl).2 ⟨rfl, (eachStep_cons rfl).2 ⟨trivial,
    (eachStep_cons rfl).2 ⟨trivial, (eachStep_cons rfl).2 ⟨?_, eachStep_nil⟩⟩⟩⟩
  rfl

/-- Data for a stream that has ended, and a stream that is opened twice: the second connection is
destroyed before its coroutine starts, and again when it ends. -/
theorem streams_not_owned :
    (∃ st, TProto.system.run {} [.frame (.synStream 1 true {}), .start 0, .finish 0] = some st ∧
      ¬st.Sound ∧ ¬st.UsesLive (.frame (.data 1 [] true)) ∧
      (TProto.system.step st (.frame (.data 1 [] true))).isSome) ∧
    (∃ st, TProto.system.run {} [.frame (.synStream 1 true {}), .frame (.synStream 1 true {}),
      .sent] =
        some st ∧ ¬st.UsesLive (.start 1) ∧
      ∃ st', TProto.system.run st [.start 1, .finish 1] = some st' ∧
        st'.conns.map TConnection.destroyed = [0, 2]) := by
  have hdead : ∀ (st : TProto) (k : Nat) (c : TConnection), st.conns[k]? = some c →
      c.destroyed ≠ 0 →
      ¬st.Live k := by
    rintro st k c hc hne ⟨c', hc', h0⟩
    rw [hc] at hc'
    cases hc'
    exact hne h0
  refine ⟨⟨_, rfl, fun h => ?_, fun h => ?_, rfl⟩,
    ⟨_, rfl, hdead _ 1 _ rfl (by decide), _, rfl, rfl⟩⟩
  · exact hdead _ 0 _ rfl (by decide) (h.1 (by decide) 1 0 rfl)
  · exact hdead _ 0 _ rfl (by decide) (h 0 rfl)

/-! ### The end of the loop -/

namespace TProtoEvent

/-- The events of the coroutines of the streams. -/
def IsStream : TProtoEvent → Prop
  | .start _ | .recv _ | .send _ | .finish _ => True
  | _ => False

/-- A SYN_STREAM is read: a connection is created, also when its stream is rejected. -/
def opens : TProtoEvent → Bool
  | .frame (.synStream ..) => true
  | _ => false

/-- `Loop` ends, by the end of the input or by an exception of a read or of `SendRst`. -/
def leaves : TProtoEvent → Bool
  | .inputEnd | .fail | .sendFailed => true
  | _ => false

end TProtoEvent

namespace TProto

variable {st st' : TProto} {ev : TProtoEvent}

/-- Once `Loop` is left, no coroutine of a stream can make another step. -/
def Joined (st : TProto) : Prop :=
  st.loop = .ended → ∀ ev : TProtoEvent, ev.IsStream → system.step st ev = none

def AllEnded (st : TProto) : Prop := ∀ c ∈ st.conns, c.cont = .ended

/-- `Loop` is left only when all of the coroutines have ended. -/
def LeavesLast (st : TProto) (ev : TProtoEvent) : Prop := ev.leaves = true → st.AllEnded

theorem contAt_eq (H : st.AllEnded) {k : Nat} {cont : TStreamCont} (h : st.contAt k = some cont) :
    cont = .ended := by
  obtain ⟨c, hc, rfl⟩ := map_eq_some_iff.1 h
  exact H c (List.mem_of_getElem? hc)

theorem joined_iff : st.Joined ↔ (st.loop = .ended → st.AllEnded) := by
  constructor
  · intro H hl c hc
    obtain ⟨k, hk⟩ := List.mem_iff_getElem?.1 hc
    have hcont : st.contAt k = some c.cont := by rw [contAt, hk]; rfl
    cases hce : c.cont with
    | created =>
      have := H hl (.start k) trivial
      simp [system, hcont, hce] at this
    | running =>
      have := H hl (.send k) trivial
      simp [system, hcont, hce] at this
    | ended => rfl
  · intro H hl ev hev
    cases hs : system.step st ev with
    | none => rfl
    | some st' =>
      have H := H hl
      cases step_effect hs with
      | opened reading | rejected reading | passed reading | left event reading =>
        simp [hl] at reading
      | released sending => simp [hl] at sending
      | started created => cases contAt_eq H created
      | worked _ running | finished running => cases contAt_eq H running

theorem allEnded_destroy (k : Nat) : (st.destroy k).AllEnded ↔ st.AllEnded := by
  have hmap : (st.destroy k).conns.map TConnection.cont = st.conns.map TConnection.cont := by
    apply List.ext_getElem?
    intro j
    simp only [destroy, modifyConn, List.getElem?_map, List.getElem?_modify]
    cases st.conns[j]? with
    | none => rfl
    | some c => simp only [Option.map_eq_map, map_some]; split <;> rfl
  have hall : ∀ st : TProto, st.AllEnded ↔ ∀ cont ∈ st.conns.map TConnection.cont,
      cont = .ended := by
    intro st
    simp [AllEnded]
  rw [hall, hmap, ← hall]

/-- One step keeps the join exactly when it does not leave `Loop` too early. -/
theorem joined_step_iff (hP : st.Joined) (h : system.step st ev = some st') :
    st'.Joined ↔ st.LeavesLast ev := by
  rw [joined_iff] at hP ⊢
  cases step_effect h with
  | opened reading unknown conns connmap loop | rejected reading known conns connmap loop =>
    simp [loop, LeavesLast, TProtoEvent.leaves]
  | passed reading other conns connmap loop =>
    rcases loop with loop | loop <;> simp [loop, LeavesLast, TProtoEvent.leaves]
  | left event reading conns connmap loop =>
    have hleaves : ev.leaves = true := by rcases event with rfl | rfl <;> rfl
    simp [loop, LeavesLast, hleaves, AllEnded, conns]
  | @released ev conn sending conns connmap loop =>
    rcases loop with ⟨rfl, loop⟩ | ⟨rfl, loop⟩
    · simp [loop, LeavesLast, TProtoEvent.leaves]
    · have hall : st'.AllEnded ↔ st.AllEnded := by
        unfold AllEnded
        rw [conns]
        cases conn with
        | none => exact Iff.rfl
        | some k => exact allEnded_destroy k
      simp [loop, LeavesLast, TProtoEvent.leaves, hall]
  | started created conns connmap loop =>
    refine iff_of_true (fun hl => ?_) nofun
    cases contAt_eq (hP (loop.symm.trans hl)) created
  | worked event running conns connmap loop =>
    refine iff_of_true (fun hl => ?_) ?_
    · cases contAt_eq (hP (loop.symm.trans hl)) running
    · rcases event with rfl | rfl <;> exact nofun
  | finished running conns connmap loop =>
    refine iff_of_true (fun hl => ?_) nofun
    cases contAt_eq (hP (loop.symm.trans hl)) running

/-- What the events so far say about the connections. -/
structure History (evs : List TProtoEvent) (st : TProto) : Prop where
  length : st.conns.length = evs.countP TProtoEvent.opens
  ended : ∀ k, st.contAt k = some .ended ↔ .finish k ∈ evs

theorem length_step (h : system.step st ev = some st') :
    st'.conns.length = st.conns.length + [ev].countP TProtoEvent.opens := by
  cases step_effect h with
  | opened reading unknown conns | rejected reading known conns => simp [conns, TProtoEvent.opens]
  | @passed f reading other conns =>
    cases f with
    | synStream id fin headers => exact absurd rfl (other id fin headers)
    | _ => simp [conns, TProtoEvent.opens]
  | left event reading conns => rcases event with rfl | rfl <;> simp [conns, TProtoEvent.opens]
  | @released ev conn sending conns connmap loop =>
    have hlen : (conn.elim st st.destroy).conns.length = st.conns.length := by
      cases conn with
      | none => rfl
      | some k => exact List.length_modify ..
    rcases loop with ⟨rfl, -⟩ | ⟨rfl, -⟩ <;> simp [conns, hlen, TProtoEvent.opens]
  | started created conns => simp [conns, TProtoEvent.opens]
  | worked event running conns => rcases event with rfl | rfl <;> simp [conns, TProtoEvent.opens]
  | finished running conns => simp [conns, TProtoEvent.opens]

theorem history_run {evs : List TProtoEvent} (h : system.run {} evs = some st) :
    History evs st := by
  refine run_history ⟨rfl, by simp [contAt]⟩ (fun pre st ev st' _ H h => ⟨?_, fun k => ?_⟩) h
  · rw [length_step h, H.length, List.countP_append]
  · rw [ended_step h, H.ended, List.mem_append, List.mem_singleton, or_comm, eq_comm]

theorem History.allEnded_iff {evs : List TProtoEvent} (H : History evs st) :
    st.AllEnded ↔ ∀ k < evs.countP TProtoEvent.opens, .finish k ∈ evs := by
  rw [← H.length]
  simp only [← H.ended]
  constructor
  · intro hall k hk
    rw [contAt, List.getElem?_eq_getElem hk, map_some, hall _ (List.getElem_mem hk)]
  · intro hall c hc
    obtain ⟨k, hk, rfl⟩ := List.mem_iff_getElem.1 hc
    have := hall k hk
    rwa [contAt, List.getElem?_eq_getElem hk, map_some, Option.some.injEq] at this

end TProto

/-- Any run of `Loop` and of the coroutines of the streams: none of the coroutines can go on after
the end of `Loop`, exactly when every SYN_STREAM that was read before the end of the input, the
failing read or the failing `SendRst`, a rejected one included, has had the `finish` of its
coroutine before it. -/
theorem loop_joined_iff (evs : List TProtoEvent) (hrun : (TProto.system.run {} evs).isSome) :
    TProto.system.Always TProto.Joined {} evs ↔
      ∀ pre ev, pre ++ [ev] <+: evs → ev.leaves = true →
        ∀ k < pre.countP TProtoEvent.opens, .finish k ∈ pre := by
  have hsteps : TProto.system.Always TProto.Joined {} evs ↔
      TProto.system.EachStep TProto.LeavesLast {} evs :=
    always_iff_eachStep (I := fun _ => True) hrun (fun _ _ _ _ _ => trivial)
      (fun _ _ _ _ hP h => TProto.joined_step_iff hP h) trivial nofun
  rw [hsteps]
  constructor
  · intro H pre ev hpre hleaves
    obtain ⟨st, hst⟩ := run_initial ((List.prefix_append pre [ev]).trans hpre) hrun
    exact (TProto.history_run hst).allEnded_iff.1 (H pre ev st hpre hst hleaves)
  · intro H pre ev st hpre hst hleaves
    exact (TProto.history_run hst).allEnded_iff.2 (H pre ev hpre hleaves)

/-- The stream has ended when the client closes the connection. -/
theorem loop_joined_single :
    TProto.system.Always TProto.Joined {}
      [.frame (.synStream 1 true {}), .start 0, .recv 0, .send 0, .finish 0, .inputEnd] := by
  have h : ∀ l ∈ List.inits [.frame (.synStream 1 true {}), .start 0, .recv 0, .send 0, .finish 0,
      .inputEnd], ∀ ev ∈ l.getLast?, ev.leaves = true →
        ∀ k < l.dropLast.countP TProtoEvent.opens, .finish k ∈ l.dropLast := by decide
  refine (loop_joined_iff _ rfl).2 fun pre ev hpre hleaves => ?_
  simpa using h (pre ++ [ev]) ((List.mem_inits _ _).2 hpre) ev (by simp) hleaves

/-- The client closes the connection after it has opened a stream. `Loop` returns, and the coroutine
of the stream then starts. -/
theorem loop_left_early :
    ¬TProto.system.Always TProto.Joined {} [.frame (.synStream 1 true {}), .inputEnd] ∧
    ∃ st, TProto.system.run {} [.frame (.synStream 1 true {}), .inputEnd, .start 0, .send 0] =
      some st ∧
      st.loop = .ended := by
  constructor
  · intro h
    have h₁ := h.last rfl rfl (.start 0) trivial
    cases h₁
  · exact ⟨_, rfl, rfl⟩

/-! ### The frames on the connection -/

/-- What `Loop` and the coroutines do on any input is a run of the kind that the results above are
about. -/
theorem TProto.inputSystem_run {σ : Type} [IIoInput σ] {it it' : TStreamIterator σ} {st : TProto}
    {evs : List TInputEvent} (h : (inputSystem σ).run ({}, it) evs = some (st, it')) :
    ∃ evs', system.run {} evs' = some st := by
  refine run_of_simulation Prod.fst ?_ h
  rintro ⟨st₁, it₁⟩ ev ⟨st₂, it₂⟩ hs
  cases ev with
  | turn inflate =>
    obtain ⟨st₃, h₃, heq⟩ := map_eq_some_iff.1 hs
    cases heq
    exact ⟨_, h₃⟩
  | event ev =>
    cases ev with
    | frame f | inputEnd | fail => cases hs
    | _ =>
      obtain ⟨st₃, h₃, heq⟩ := map_eq_some_iff.1 hs
      cases heq
      exact ⟨_, h₃⟩

end Balancer.Spdy
