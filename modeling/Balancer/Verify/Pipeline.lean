import Balancer.Verify.Requests

/-!
# Requests on one connection

The loop of the http module creates its contexts one after the other on one iterator. After the head
a context leaves the iterator at the body of its request, and what the inner module takes from its
`Input` is taken from there (`run_received`); nothing else moves the iterator. So every context
starts at its own request exactly when every context before it took as many bytes as its body has
(`contexts_inSync_iff`).
-/

namespace Balancer

open BlockIO Source
open Http11 (Head Chunk LastChunk)

/-- A request as a client writes it: without a body, with a body of the length that it declares, or
with a chunked body. -/
structure ClientRequest where
  head : Head
  body : List UInt8
  framed : Http11.framing head.view = some .unframed ∧ body = [] ∨
    Http11.framing head.view = some (.length body.length) ∨
    Http11.framing head.view = some .chunked ∧
      ∃ (cs : List Chunk) (last : LastChunk), body = Http11.encodeChunked cs last

namespace ClientRequest

def encode (q : ClientRequest) : List UInt8 := q.head.encode ++ q.body

theorem encode_ne_nil (q : ClientRequest) (xs : List UInt8) : q.encode ++ xs ≠ [] := by
  simp [encode, Head.encode, Http11.crlf]

end ClientRequest

variable {σ τ : Type} [IIoInput σ] [IIoOutput τ] {it it' : TStreamIterator σ} {xs ys : List UInt8}
  {f : Option TException}

/-! ### One context -/

/-- A `Recv` of the limited input moves the iterator by what it hands out. -/
theorem TFixedLengthInput.recv_holds {c : TFixedLengthInput σ} (H : c.it.Holds xs f) :
    (∀ l, (recv c).1 = .ok l → ∃ ys, xs = l.flatten ++ ys ∧ (recv c).2.it.Holds ys f) ∧
      (∀ e, (recv c).1 = .error e → (recv c).2.it.Holds xs f) := by
  obtain ⟨it, len⟩ := c
  rw [recv_eq]
  by_cases hlen : len = 0
  · subst hlen
    rw [doRecv_zero]
    refine ⟨fun l hl => ?_, fun e he => H⟩
    cases hl
    exact ⟨xs, rfl, H⟩
  · by_cases hx : xs = []
    · subst hx
      obtain ⟨it', hn, H'⟩ := H.nextLen_nil len
      cases f with
      | none =>
        rw [doRecv_ok hlen hn]
        refine ⟨fun l hl => ?_, fun e he => H'⟩
        cases hl
        exact ⟨[], rfl, H'⟩
      | some e =>
        rw [doRecv_error hlen hn]
        refine ⟨fun l hl => ?_, fun e he => H'⟩
        cases hl
    · obtain ⟨lst, it', ys, hn, -, -, -, rfl, H'⟩ := H.nextLen hx (Nat.pos_of_ne_zero hlen)
      rw [doRecv_ok hlen hn]
      refine ⟨fun l hl => ?_, fun e he => ?_⟩
      · cases hl
        exact ⟨ys, rfl, H'⟩
      · cases he

namespace THttpModule

variable {output : τ}

/-- After `RunDecoded` the iterator is behind what the inner module took from its `Input`. -/
theorem runDecoded_holds (H : it.Holds xs f) (handler : TBehaviour) (len : Nat)
    (out : THttpEncoder τ) :
    ∃ ys, xs = (if len ≠ 0 then handler.received (TFixedLengthInput.mk it len) out
        else handler.received TNullStream.mk out) ++ ys ∧
      (runDecoded handler len it out).2.1.Holds ys f := by
  unfold runDecoded
  split
  · let P (bs : List UInt8) (c : TFixedLengthInput σ) : Prop :=
      ∃ ys, xs = bs ++ ys ∧ c.it.Holds ys f
    have hok : ∀ bs c l, P bs c → (recv c).1 = .ok l → P (bs ++ l.flatten) (recv c).2 := by
      rintro bs c l ⟨ys, rfl, Hc⟩ hr
      obtain ⟨zs, rfl, Hz⟩ := (TFixedLengthInput.recv_holds Hc).1 l hr
      exact ⟨zs, by simp, Hz⟩
    have herr : ∀ bs c e, P bs c → (recv c).1 = .error e → P bs (recv c).2 := by
      rintro bs c e ⟨ys, rfl, Hc⟩ hr
      exact ⟨ys, rfl, (TFixedLengthInput.recv_holds Hc).2 e hr⟩
    have h0 : P [] (TFixedLengthInput.mk it len) := ⟨xs, rfl, H⟩
    exact Prog.run_received (t := out) hok herr handler h0
  · let P (bs : List UInt8) (_ : TNullStream) : Prop := bs = []
    have hok : ∀ bs c l, P bs c → (recv c).1 = .ok l → P (bs ++ l.flatten) (recv c).2 := by
      rintro bs c l rfl hr
      cases hr
      rfl
    have h0 : P [] TNullStream.mk := rfl
    have hnil : handler.received TNullStream.mk out = [] :=
      Prog.run_received (t := out) hok (fun _ _ _ h _ => h) handler h0
    exact ⟨xs, by rw [hnil]; rfl, H⟩

theorem runEncoded_it (t : TTransfer) (headers : TChunkList) (handler : TBehaviour) (len : Nat)
    (it : TStreamIterator σ) (output : τ) :
    (runEncoded t headers handler len it output).2.1 =
      (runDecoded handler len it
        { transfer := t, customHeaders := some headers, s := output }).2.1 := by
  unfold runEncoded
  simp only
  split
  · next h => rw [h]
  · next h => rw [h]

theorem run_received (m : THttpModule) (handler : TRequest → TBehaviour) (request : TRequest)
    (props : TRequestProperties) (H : it.Holds xs f) (output : τ) :
    ∃ ys, xs = m.received handler request props it output ++ ys ∧
      (m.run handler request props it output).2.1.Holds ys f := by
  unfold run received
  split
  · exact ⟨xs, rfl, H⟩
  · simp only [runEncoded_it]
    exact runDecoded_holds H (handler request) props.contentLength _

theorem peek_holds (H : it.Holds xs f) (hx : xs ≠ []) :
    ∃ it', peek it = (.ok true, it') ∧ it'.Holds xs f := by
  obtain ⟨it', hp, -, H'⟩ := H.peek_ne_nil hx
  exact ⟨it', by rw [peek, hp], H'⟩

theorem loop_nil (m : THttpModule) (H : it.Holds [] f) (handlers : List (TRequest → TBehaviour))
    (output : τ) :
    (m.loop handlers it output).contexts = [] ∧ (m.loop handlers it output).output = output := by
  obtain ⟨it', hp, -⟩ := H.peek_nil
  have hpeek : (peek it).1 ≠ .ok true := by
    unfold peek
    rw [hp]
    cases f with
    | none => simp [ended, Except.map]
    | some e =>
      simp only [ended, Except.map]
      split <;> simp
  unfold loop
  split
  · exact ⟨rfl, rfl⟩
  · exact ⟨rfl, rfl⟩
  · next h => exact absurd (congrArg Prod.fst h) hpeek

/-- The record of the context that is created at `it`, when `r` has been parsed up to `it'`. -/
def context (m : THttpModule) (handler : TRequest → TBehaviour) (it it' : TStreamIterator σ)
    (r : TRequest) (output : τ) : TContextRecord σ :=
  ⟨it, .ok r, m.received handler r.requestProperties.2 r.requestProperties.1 it' output⟩

/-- One turn of the loop, when the head of a request has been parsed: it is the last one, or the
connection is kept alive. -/
theorem loop_cases (m : THttpModule) (handler : TRequest → TBehaviour)
    (handlers : List (TRequest → TBehaviour)) {it₁ it₂ : TStreamIterator σ} {r : TRequest}
    (hp : peek it = (.ok true, it₁)) (hr : parsedRequest m.maxLen it₁ = (.ok r, it₂)) (output : τ) :
    (∃ res it' output', m.run handler r.requestProperties.2 r.requestProperties.1 it₂ output =
        (res, it', output') ∧ res ≠ .ok true ∧
      (m.loop (handler :: handlers) it output).contexts = [m.context handler it₁ it₂ r output] ∧
      (m.loop (handler :: handlers) it output).output = output') ∨
    ∃ it' output', m.run handler r.requestProperties.2 r.requestProperties.1 it₂ output =
        (.ok true, it', output') ∧
      (m.loop (handler :: handlers) it output).contexts =
        m.context handler it₁ it₂ r output :: (m.loop handlers it' output').contexts ∧
      (m.loop (handler :: handlers) it output).output = (m.loop handlers it' output').output := by
  rcases hrun : m.run handler r.requestProperties.2 r.requestProperties.1 it₂ output with
    ⟨e | _ | _, it', output'⟩
  · have hl : m.loop (handler :: handlers) it output =
        { failed e it' output' with contexts := [m.context handler it₁ it₂ r output] } := by
      rw [loop, hp]
      simp only [hr, hrun, context]
    rw [hl]
    exact .inl ⟨_, it', output', rfl, by simp, rfl, rfl⟩
  · have hl : m.loop (handler :: handlers) it output =
        { contexts := [m.context handler it₁ it₂ r output], result := some (.ok ()), it := it',
          output := output' } := by
      rw [loop, hp]
      simp only [hr, hrun, context]
    rw [hl]
    exact .inl ⟨_, it', output', rfl, by simp, rfl, rfl⟩
  · have hl : m.loop (handler :: handlers) it output =
        { m.loop handlers it' output' with
          contexts := m.context handler it₁ it₂ r output ::
            (m.loop handlers it' output').contexts } := by
      rw [loop, hp]
      simp only [hr, hrun, context]
    rw [hl]
    exact .inr ⟨it', output', rfl, rfl, rfl⟩

/-- The first context starts where the loop does. -/
theorem loop_first (m : THttpModule) (H : it.Holds xs f) (handlers : List (TRequest → TBehaviour))
    (output : τ) : ∀ c ∈ (m.loop handlers it output).contexts.head?, c.it.Holds xs f := by
  intro c hc
  by_cases hx : xs = []
  · subst hx
    rw [(loop_nil m H handlers output).1] at hc
    cases hc
  · obtain ⟨it₁, hp, H₁⟩ := peek_holds H hx
    cases handlers with
    | nil =>
      rw [loop, hp] at hc
      cases hc
    | cons handler handlers =>
      rcases hr : parsedRequest m.maxLen it₁ with ⟨e | r, it₂⟩
      · rw [loop, hp] at hc
        simp only [hr] at hc
        cases hc
        exact H₁
      · rcases loop_cases m handler handlers hp hr output with ⟨res, it', out, -, -, hcs, -⟩ |
          ⟨it', out, -, hcs, -⟩
        · rw [hcs] at hc
          cases hc
          exact H₁
        · rw [hcs] at hc
          cases hc
          exact H₁

end THttpModule

/-! ### All contexts -/

/-- Every context started at its own request, and parsed that request if it accepted one. -/
def InSync (f : Option TException) : List (TContextRecord σ) → List ClientRequest → Prop
  | [], _ => True
  | _ :: _, [] => False
  | c :: cs, q :: qs => c.it.Holds ((q :: qs).flatMap ClientRequest.encode) f ∧
      (∀ r, c.parsedRequest = .ok r → r.flat = flatHead q.head) ∧ InSync f cs qs

/-- Every context that was followed by another one took as many bytes from its `Input` as the body
of its request has on the connection. -/
def TakesBodies : List (TContextRecord σ) → List ClientRequest → Prop
  | c :: c' :: cs, q :: qs => c.received.length = q.body.length ∧ TakesBodies (c' :: cs) qs
  | _, _ => True

theorem InSync.head {c : TContextRecord σ} {cs : List (TContextRecord σ)} {qs : List ClientRequest}
    (h : InSync f (c :: cs) qs) : c.it.Holds (qs.flatMap ClientRequest.encode) f := by
  cases qs with
  | nil => exact h.elim
  | cons q qs => exact h.1

section

variable {c : TContextRecord σ} {cs : List (TContextRecord σ)} {q : ClientRequest}
  {qs : List ClientRequest} (hit : c.it.Holds ((q :: qs).flatMap ClientRequest.encode) f)
  (hreq : ∀ r, c.parsedRequest = .ok r → r.flat = flatHead q.head)

include hit hreq

/-- After a context that took its body, the contexts are in step when those that follow it are. -/
theorem inSync_cons_of_taken (hlen : c.received.length = q.body.length)
    (hnext : InSync f cs qs ↔ TakesBodies cs qs) :
    InSync f (c :: cs) (q :: qs) ↔ TakesBodies (c :: cs) (q :: qs) := by
  cases cs with
  | nil => exact iff_of_true ⟨hit, hreq, trivial⟩ trivial
  | cons c' cs =>
    constructor
    · intro h
      exact ⟨hlen, hnext.1 h.2.2⟩
    · intro h
      exact ⟨hit, hreq, hnext.2 h.2⟩

/-- A context that did not take its body has to be the last one: the next one would start at two
places of the stream. -/
theorem inSync_cons_of_not_taken (hlen : c.received.length ≠ q.body.length) {ys : List UInt8}
    (hys : q.body ++ qs.flatMap ClientRequest.encode = c.received ++ ys)
    (hfirst : ∀ c', cs.head? = some c' → c'.it.Holds ys f) :
    InSync f (c :: cs) (q :: qs) ↔ TakesBodies (c :: cs) (q :: qs) := by
  cases cs with
  | nil => exact iff_of_true ⟨hit, hreq, trivial⟩ trivial
  | cons c' cs =>
    refine iff_of_false (fun h => hlen ?_) fun h => hlen h.1
    have heq := h.2.2.head.unique (hfirst c' rfl)
    rw [← heq] at hys
    exact (congrArg List.length (List.append_cancel_right hys)).symm

end

namespace THttpModule

theorem loop_inSync_iff (m : THttpModule) {qs : List ClientRequest}
    (hmax : m.maxLen = 0 ∨ (qs.flatMap ClientRequest.encode).length < m.maxLen)
    (H : it.Holds (qs.flatMap ClientRequest.encode) f) (handlers : List (TRequest → TBehaviour))
    (output : τ) :
    InSync f (m.loop handlers it output).contexts qs ↔
      TakesBodies (m.loop handlers it output).contexts qs := by
  induction handlers generalizing qs it output with
  | nil =>
    have hnil : (m.loop [] it output).contexts = [] := by
      unfold loop
      split <;> rfl
    rw [hnil]
    exact iff_of_true trivial trivial
  | cons handler handlers ih =>
    cases qs with
    | nil =>
      rw [(loop_nil m H _ output).1]
      exact iff_of_true trivial trivial
    | cons q qs =>
      rw [List.flatMap_cons] at hmax H
      obtain ⟨it₁, hp, H₁⟩ := peek_holds H (q.encode_ne_nil _)
      have H₁' := H₁
      rw [ClientRequest.encode, List.append_assoc] at H₁ hmax
      obtain ⟨r, it₂, hr, hflat, H₂⟩ := parsedRequest_encode H₁ hmax
      have hc : ∀ r', (m.context handler it₁ it₂ r output).parsedRequest = .ok r' →
          r'.flat = flatHead q.head := by
        intro r' h
        cases h
        exact hflat
      obtain ⟨ys, hys, H₃⟩ :=
        m.run_received handler r.requestProperties.2 r.requestProperties.1 H₂ output
      rcases loop_cases m handler handlers hp hr output with ⟨res, it', out, -, -, hcs, -⟩ |
        ⟨it', out, hrun, hcs, -⟩
      · rw [hcs]
        exact iff_of_true ⟨H₁', hc, trivial⟩ trivial
      · rw [hcs]
        rw [hrun] at H₃
        by_cases hlen : (m.context handler it₁ it₂ r output).received.length = q.body.length
        · -- the context leaves the iterator at the next request
          obtain ⟨-, rfl⟩ := List.append_inj hys hlen.symm
          have hmax' : m.maxLen = 0 ∨ (qs.flatMap ClientRequest.encode).length < m.maxLen := by
            refine hmax.imp_right fun h => ?_
            simp only [List.length_append] at h
            omega
          exact inSync_cons_of_taken H₁' hc hlen (ih hmax' H₃ out)
        · exact inSync_cons_of_not_taken H₁' hc hlen hys (loop_first m H₃ handlers out)

end THttpModule

instance decidableTakesBodies : (cs : List (TContextRecord σ)) → (qs : List ClientRequest) →
    Decidable (TakesBodies cs qs)
  | [], _ => .isTrue trivial
  | [_], _ => .isTrue trivial
  | _ :: _ :: _, [] => .isTrue trivial
  | c :: c' :: cs, q :: qs =>
    have := decidableTakesBodies (c' :: cs) qs
    inferInstanceAs (Decidable (c.received.length = q.body.length ∧ TakesBodies (c' :: cs) qs))

/-- Every connection whose requests stay below the limit, however its stream is cut and ends, and
whatever the inner module does: the `k`-th context parses the `k`-th request exactly when every
context that was followed by another one took all of its body, and no more, from its `Input`. -/
theorem contexts_inSync_iff (m : THttpModule) (qs : List ClientRequest)
    (hmax : m.maxLen = 0 ∨ (qs.flatMap ClientRequest.encode).length < m.maxLen)
    (c : Cutting (qs.flatMap ClientRequest.encode)) (f : Option TException)
    (handlers : List (TRequest → TBehaviour)) (output : τ) :
    InSync f (m.doRun handlers (c.script f) output).contexts qs ↔
      TakesBodies (m.doRun handlers (c.script f) output).contexts qs :=
  m.loop_inSync_iff hmax (.of_yields (c.yields f)) handlers output

/-- A `POST` with a body of nineteen bytes, which happen to be a request. -/
def smuggled : ClientRequest where
  head := postWith " 19" (by decide)
  body := Http11.ascii "GET /x HTTP/1.1\r\n\r\n"
  framed := .inr (.inl (by decide))

/-- The connection of a client that sends this request and closes. -/
def smuggledCutting : Cutting ([smuggled].flatMap ClientRequest.encode) := .whole (by decide)

/-- A response without a body. -/
def emptyResponse : TBehaviour := .send [Http11.ascii "HTTP/1.1 200 OK\r\n\r\n"] fun _ => .ret

/-- An inner module that reads its `Input` before it answers stays in step. -/
theorem contexts_inSync_read :
    InSync none (({} : THttpModule).doRun [fun _ => .recv fun _ => emptyResponse,
      fun _ => emptyResponse]
      (smuggledCutting.script none) (⟨[], []⟩ : TWire)).contexts [smuggled] :=
  (contexts_inSync_iff {} [smuggled] (.inl rfl) smuggledCutting none _ _).2 (by decide +kernel)

/-- An inner module that answers without reading its `Input`: the body is parsed as a request. -/
theorem contexts_not_inSync_unread :
    ¬InSync none (({} : THttpModule).doRun [fun _ => emptyResponse, fun _ => emptyResponse]
      (smuggledCutting.script none) (⟨[], []⟩ : TWire)).contexts [smuggled] := by
  unfold THttpModule.doRun
  rw [({} : THttpModule).loop_inSync_iff (.inl rfl) (.of_yields (smuggledCutting.yields none))]
  decide +kernel

end Balancer
