import Balancer.Verify.RequestParser
import Balancer.Modules.Spdy.Reply

/-!
# Responses on SPDY streams

`TConnection::DoSend` asks `HeadersParsed()` whether the headers of the response are complete. The
machine leaves the chunk in which they end by a `return`, before its state is stored, so the stored
state is never the final one (`TPushParseContext.Unfinished`), and every `Send` is parsed as a part
of a header block. What is sent after the list in which the headers end is therefore no data of the
stream (`reply_framed_iff`).
-/

namespace Balancer

open BlockIO ParseHttpRequest TRequestParseContextHard

/-! ### The stored state -/

theorem TRequest.modifyTok_id (r : TRequest) (t : TTokRef) : r.modifyTok t id = r := by
  cases t with
  | request => rfl
  | key i | value i => exact congrArg (TRequest.mk r.request) (List.modify_id i r.headers)

namespace TRequestParseContextHard

variable {cur : TChunk} {q q' : State} {sp p : Nat} {c : UInt8} {rem : List UInt8}
  {acts : List Action}
  {ctx ctx' : TRequestParseContextHard}

theorem addPartToTok_cs (ctx : TRequestParseContextHard) (cur : TChunk) (b e : Nat) :
    (ctx.addPartToTok cur b e).cs = ctx.cs := by
  unfold addPartToTok
  split <;> rfl

theorem act_cs (cur : TChunk) (p : Nat) (x : Nat × TRequestParseContextHard) (a : Action) :
    (act cur p x a).2.cs = x.2.cs := by
  cases a with
  | endOfToken => exact addPartToTok_cs ..
  | _ => rfl

/-- The stored state is not the final one, also after the end of the headers. -/
theorem cs_invariant : Invariant fun ctx => ctx.cs ≠ .final where
  act a _ h := by rwa [act_cs]
  add h := by rwa [addPartToTok_cs]
  store := by
    rintro q ctx (rfl | hq) h
    · exact h
    · exact hq
  rest h := h

/-- Empty chunks change nothing. -/
theorem parseChunk_empty {lst : TChunkList} (h : lst.flatten = [])
    (ctx : TRequestParseContextHard) : ctx.parseChunk lst = .ok (false, ctx) := by
  induction lst with
  | nil => rfl
  | cons cur lst ih =>
    obtain ⟨rfl, hlst⟩ := List.append_eq_nil_iff.1 h
    have hadd : ctx.addPartToTok [] 0 0 = ctx := by
      unfold addPartToTok
      split
      · next t ht =>
        have hid : TChunk.addPartTo [] 0 0 = id := rfl
        rw [hid, TRequest.modifyTok_id]
      · rfl
    simp only [parseChunk, exec, List.length_nil, hadd]
    exact ih hlst

end TRequestParseContextHard

/-- `HeadersParsed()` is not going to be true. -/
def TPushParseContext.Unfinished (c : TPushParseContext) : Prop := c.ctx.cs ≠ .final

namespace TPushParseContext

variable {c c' : TPushParseContext} {lst u : TChunkList}

theorem Unfinished.headersParsed (H : c.Unfinished) : c.headersParsed = false := by
  have : (c.ctx.cs == State.final) = false := beq_eq_false_iff_ne.2 H
  simp [TPushParseContext.headersParsed, this]

theorem Unfinished.parseChunk (H : c.Unfinished) {r : Except TException (Bool × TChunkList)}
    (h : c.parseChunk lst = (r, c')) : c'.Unfinished := by
  unfold TPushParseContext.parseChunk at h
  split at h
  · cases h
    exact H
  · split at h
    · cases h
      exact H
    · next hp =>
      cases h
      have hcs := cs_invariant.parseChunk H hp
      exact hcs
    · next hp =>
      cases h
      exact cs_invariant.parseChunk H hp

end TPushParseContext

/-! ### One `Send` -/

namespace Spdy.TReply

variable {st : TReply} {lst u : TChunkList} {c : TPushParseContext}

theorem doSend_error (H : st.c.Unfinished) (hp : st.c.parseChunk lst = (.error e, c)) :
    st.doSend lst = (.error e, { st with c }) := by
  simp [doSend, H.headersParsed, hp]

theorem doSend_more (H : st.c.Unfinished) (hp : st.c.parseChunk lst = (.ok (false, u), c)) :
    st.doSend lst = (.ok (), { st with c }) := by
  simp [doSend, H.headersParsed, hp]

theorem doSend_done (H : st.c.Unfinished) (hp : st.c.parseChunk lst = (.ok (true, u), c)) :
    st.doSend lst = (.ok (), ({ st with c } : TReply).onHeaders.onData u) := by
  simp [doSend, H.headersParsed, hp]

theorem sent_onHeaders_onData (st : TReply) (u : TChunkList) :
    ∃ block, (st.onHeaders.onData u).sent =
    st.sent ++ [.synReply st.streamID block, .data st.streamID (u.fullLength % 2 ^ 24) u] :=
  ⟨(saveHeaders st.order st.c.ctx.request).1, by simp [onHeaders, onData]⟩

theorem unfinished_onHeaders_onData (H : st.c.Unfinished) (u : TChunkList) :
    (st.onHeaders.onData u).c.Unfinished := H

/-! ### After the headers -/

/-- A `SYN_REPLY` frame is among the frames that were added, if any were. -/
def Follows (st st' : TReply) : Prop :=
  ∃ extra, st'.sent = st.sent ++ extra ∧ (extra = [] ∨ ∃ id block, .synReply id block ∈ extra)

theorem Follows.trans {st st₁ st₂ : TReply} (h₁ : Follows st st₁) (h₂ : Follows st₁ st₂) :
    Follows st st₂ := by
  obtain ⟨x₁, e₁, h₁⟩ := h₁
  obtain ⟨x₂, e₂, h₂⟩ := h₂
  refine ⟨x₁ ++ x₂, by rw [e₂, e₁, List.append_assoc], ?_⟩
  rcases h₁ with rfl | ⟨id, block, h₁⟩
  · exact h₂
  · exact .inr ⟨id, block, List.mem_append_left _ h₁⟩

theorem doSend_follows (H : st.c.Unfinished) (lst : TChunkList) :
    (st.doSend lst).2.c.Unfinished ∧ Follows st (st.doSend lst).2 := by
  rcases hp : st.c.parseChunk lst with ⟨e | ⟨b, u⟩, c⟩
  · rw [doSend_error H hp]
    exact ⟨H.parseChunk hp, [], by simp, .inl rfl⟩
  · cases b with
    | false =>
      rw [doSend_more H hp]
      exact ⟨H.parseChunk hp, [], by simp, .inl rfl⟩
    | true =>
      rw [doSend_done H hp]
      obtain ⟨block, hsent⟩ := sent_onHeaders_onData ({ st with c } : TReply) u
      exact ⟨unfinished_onHeaders_onData (H.parseChunk hp) u, _, hsent,
        .inr ⟨_, block, List.mem_cons_self ..⟩⟩

theorem sends_follows (H : st.c.Unfinished) (ls : List TChunkList) :
    (st.sends ls).2.c.Unfinished ∧ Follows st (st.sends ls).2 := by
  induction ls generalizing st with
  | nil => exact ⟨H, [], by simp [sends], .inl rfl⟩
  | cons lst ls ih =>
    obtain ⟨H₁, h₁⟩ := doSend_follows H lst
    unfold sends
    rcases hs : st.doSend lst with ⟨e | _, st₁⟩
    · rw [hs] at H₁ h₁
      exact ⟨H₁, h₁⟩
    · rw [hs] at H₁ h₁
      obtain ⟨H₂, h₂⟩ := ih H₁
      exact ⟨H₂, h₁.trans h₂⟩

theorem sends_empty (H : st.c.Unfinished) (hf : st.c.failed = false) {ls : List TChunkList}
    (hls : bytesOf ls = []) : st.sends ls = (.ok (), st) := by
  induction ls with
  | nil => rfl
  | cons lst ls ih =>
    rw [bytesOf_cons, List.append_eq_nil_iff] at hls
    have hp : st.c.parseChunk lst = (.ok (false, []), st.c) := by
      rw [TPushParseContext.parseChunk, if_neg (by simp [hf]), parseChunk_empty hls.1]
    rw [sends, doSend_more H hp]
    exact ih hls.2

/-! ### The frames of a response -/

/-- The headers are being parsed. -/
structure InHead (st : TReply) (s : FlatState) : Prop where
  unfinished : st.c.Unfinished
  failed : st.c.failed = false
  unparsed : st.c.ctx.unparsed = []
  ready : Ready s st.c.ctx
  sent : st.sent = []

theorem InHead.init (id : Nat) (order : EArgumentOrder) :
    InHead { streamID := id, order } {} :=
  ⟨by simp [TPushParseContext.Unfinished], rfl, rfl, Ready.init, rfl⟩

/-- A `Send` while the headers are being parsed, by how the flat machine runs on its bytes. -/
theorem InHead.doSend {s : FlatState} (H : st.InHead s) (lst : TChunkList) :
    match s.run lst.flatten with
    | .more s' => ∃ c, st.doSend lst = (.ok (), { st with c }) ∧ InHead { st with c } s'
    | .error => True
    | .done _ tail =>
      ∃ st' block u, st.doSend lst = (.ok (), st') ∧ st'.c.Unfinished ∧ st'.c.failed = false ∧
        u.flatten = tail ∧
        st'.sent = [.synReply st.streamID block, .data st.streamID (tail.length % 2 ^ 24) u] := by
  have hx := TPushParseContext.InHead.parseChunk ⟨H.failed, H.unparsed, H.ready⟩ lst
  rcases hp : st.c.parseChunk lst with ⟨r, c⟩
  rw [hp] at hx
  revert hx
  cases s.run lst.flatten with
  | more s' =>
    rintro ⟨rfl, hc⟩
    exact ⟨c, doSend_more H.unfinished hp, H.unfinished.parseChunk hp, hc.failed, hc.unparsed,
      hc.ready, H.sent⟩
  | error => exact fun _ => trivial
  | done req tail =>
    rintro ⟨u, rfl, hf, -, rfl, -⟩
    obtain ⟨block, hsent⟩ := sent_onHeaders_onData ({ st with c } : TReply) u
    refine ⟨_, block, u, doSend_done H.unfinished hp,
      unfinished_onHeaders_onData (H.unfinished.parseChunk hp) _, hf, rfl, ?_⟩
    rw [hsent, TChunkList.fullLength_eq, H.sent]
    rfl

/-- The calls return, and there are one `SYN_REPLY` frame and then `DATA` frames of the lengths that
they announce, with the bytes `body` together. -/
def Framed (id : Nat) (body : List UInt8) (x : Except TException Unit × TReply) : Prop :=
  x.1 = .ok () ∧ ∃ block parts, bytesOf parts = body ∧
    x.2.sent = .synReply id block :: parts.map fun p => .data id p.flatten.length p

/-- One list holds the last byte of the headers and all of the body; no list after it has data. -/
def EndsInOne (body : List UInt8) (ls : List TChunkList) : Prop :=
  ∃ pre lst post head, ls = pre ++ lst :: post ∧ lst.flatten = head ++ body ∧ head ≠ [] ∧
    bytesOf post = []

/-- The list in which the headers end. -/
theorem endsInOne_cons {head tail : List UInt8} (hl : lst.flatten = head ++ tail) (hne : head ≠ [])
    (ls : List TChunkList) : EndsInOne (tail ++ bytesOf ls) (lst :: ls) ↔ bytesOf ls = [] := by
  constructor
  · rintro ⟨pre, l, post, hd, he, hb, hd0, hpost⟩
    cases pre with
    | nil =>
      rw [List.nil_append, List.cons.injEq] at he
      rw [he.2]
      exact hpost
    | cons l' pre =>
      -- a later list would have to hold more bytes than all lists after the first one do
      rw [List.cons_append, List.cons.injEq] at he
      have hlen := congrArg List.length hb
      have hpos := List.length_pos_iff.2 hd0
      rw [he.2] at hlen
      simp only [bytesOf_append, bytesOf_cons, List.length_append] at hlen
      omega
  · intro h
    exact ⟨[], lst, ls, head, rfl, by rw [h, List.append_nil]; exact hl, hne, h⟩

/-- A list inside the headers. -/
theorem endsInOne_skip {body : List UInt8} {ls : List TChunkList} (hne : bytesOf ls ≠ []) :
    EndsInOne body (lst :: ls) ↔ EndsInOne body ls := by
  constructor
  · rintro ⟨pre, l, post, hd, he, hb, hd0, hpost⟩
    cases pre with
    | nil =>
      rw [List.nil_append, List.cons.injEq] at he
      exact absurd (he.2 ▸ hpost) hne
    | cons l' pre =>
      rw [List.cons_append, List.cons.injEq] at he
      exact ⟨pre, l, post, hd, he.2, hb, hd0, hpost⟩
  · rintro ⟨pre, l, post, hd, rfl, hb, hd0, hpost⟩
    exact ⟨lst :: pre, l, post, hd, rfl, hb, hd0, hpost⟩

/-- After the list in which the headers end. Every further `SYN_REPLY` frame is one too many. -/
theorem framed_after_iff {id : Nat} {block tail : List UInt8} (H : st.c.Unfinished)
    (hf : st.c.failed = false) (hu : u.flatten = tail) (hsent : st.sent =
      [.synReply id block, .data id (tail.length % 2 ^ 24) u]) (ls : List TChunkList) :
    Framed id (tail ++ bytesOf ls) (st.sends ls) ↔
      bytesOf ls = [] ∧ (tail ++ bytesOf ls).length < 2 ^ 24 := by
  constructor
  · rintro ⟨-, block', parts, hparts, hframes⟩
    obtain ⟨-, extra, hextra, hsyn⟩ := sends_follows H ls
    rw [hextra, hsent, List.cons_append, List.cons.injEq] at hframes
    rcases hsyn with rfl | ⟨id', block'', hmem⟩
    · obtain ⟨p, rfl, hp⟩ := List.map_eq_singleton_iff.1 hframes.2.symm
      obtain ⟨-, hlen, rfl⟩ := TOutFrame.data.inj hp
      have h0 : bytesOf ls = [] := by simpa [hu] using hparts
      rw [hu] at hlen
      rw [h0, List.append_nil]
      exact ⟨rfl, hlen ▸ Nat.mod_lt _ (by decide)⟩
    · have hmem' := hframes.2 ▸ List.mem_append_right _ hmem
      obtain ⟨p, -, hp⟩ := List.mem_map.1 hmem'
      cases hp
  · rintro ⟨h0, hlt⟩
    rw [h0, List.append_nil] at hlt ⊢
    rw [sends_empty H hf h0]
    refine ⟨rfl, block, [u], by simp [hu], ?_⟩
    rw [hsent, Nat.mod_eq_of_lt hlt, ← hu]
    rfl

theorem InHead.framed_iff {s : FlatState} (H : st.InHead s) {ls : List TChunkList}
    {req : FlatRequest} {body : List UInt8} (hrun : s.run (bytesOf ls) = .done req body) :
    Framed st.streamID body (st.sends ls) ↔ EndsInOne body ls ∧ body.length < 2 ^ 24 := by
  induction ls generalizing st s with
  | nil => cases hrun
  | cons lst ls ih =>
    have hx := H.doSend lst
    rw [bytesOf_cons, FlatState.run_append] at hrun
    revert hx hrun
    cases hl : s.run lst.flatten with
    | error => intro hrun; cases hrun
    | more s' =>
      rintro hrun ⟨c, hs, H'⟩
      have hne : bytesOf ls ≠ [] := by
        intro h0
        rw [h0] at hrun
        cases hrun
      rw [sends, hs, endsInOne_skip hne]
      exact ih H' hrun
    | done req' tail =>
      rintro hrun ⟨st', block, u, hs, hU, hf, hu, hsent⟩
      obtain ⟨head, hhead, hne, -⟩ := FlatState.run_done hl
      obtain ⟨-, rfl⟩ : req' = req ∧ tail ++ bytesOf ls = body := by
        simpa [FlatRun.append] using hrun
      rw [sends, hs, endsInOne_cons hhead hne]
      exact framed_after_iff hU hf hu hsent ls

/-- A response with the headers `head` and the body `body`, in any cut into `Send` calls.
`HeadersParsed()` is false after all of them, so it never tells that the headers are complete; the
stream sends the response as one `SYN_REPLY` frame and `DATA` frames with the body exactly if the
body is sent with the last byte of the headers in one call, and is shorter than 2^24 bytes. -/
theorem reply_framed_iff (id : Nat) (order : EArgumentOrder) {head : List UInt8} {req : FlatRequest}
    (hhead : ({} : FlatState).run head = .done req []) (body : List UInt8) {ls : List TChunkList}
    (hls : bytesOf ls = head ++ body) :
    (∀ pre, pre <+: ls →
      (({ streamID := id, order } : TReply).sends pre).2.c.headersParsed = false) ∧
    (Framed id body (({ streamID := id, order } : TReply).sends ls) ↔
      EndsInOne body ls ∧ body.length < 2 ^ 24) := by
  have H := InHead.init id order
  constructor
  · intro pre _
    exact (sends_follows H.unfinished pre).1.headersParsed
  · have hrun : ({} : FlatState).run (bytesOf ls) = .done req body := by
      rw [hls, FlatState.run_append, hhead]
      rfl
    exact H.framed_iff hrun

/-- A response in one list. -/
theorem reply_framed_one :
    Framed 1 [66] ((⟨1, .rightToLeft, {}, []⟩ : TReply).sends [[[65, 13], [10, 13, 10, 66]]]) := by
  have hhead : ({} : FlatState).run [65, 13, 10, 13, 10] = .done ⟨[65], []⟩ [] := by decide
  have h := (reply_framed_iff 1 .rightToLeft hhead [66]
    (show bytesOf [[[65, 13], [10, 13, 10, 66]]] = _ by decide)).2
  exact h.2 ⟨⟨[], _, [], [65, 13, 10, 13, 10], rfl, by decide, by decide, rfl⟩, by decide⟩

/-- The headers in one list and the body in another one: the body is not sent, and is taken for the
start of another header block. -/
theorem reply_framed_lost :
    ((⟨1, .rightToLeft, {}, []⟩ : TReply).sends
      [[[65, 13, 10, 13, 10]], [[66]]]).2.c.headersParsed = false ∧
    ∃ block, ((⟨1, .rightToLeft, {}, []⟩ : TReply).sends [[[65, 13, 10, 13, 10]], [[66]]]).2.sent =
      [.synReply 1 block, .data 1 0 []] :=
  ⟨by decide, _, rfl⟩

end Spdy.TReply

end Balancer
