import Balancer.Verify.Heads
import Balancer.Verify.Inputs
import Balancer.Theory.ChunkedCoding

/-!
# Requests on their way to a backend

A context of the http module parses the head of a request and leaves the iterator at its body
(`parsedRequest_encode`); whatever limit is configured, a request that is accepted is the one that
the client wrote (`parsedRequest_flat`). On the way through `TRequestProperties` and `BuildTo` the
request loses the fields that frame its body, so what is written to a backend is never delimited by
its own fields (`forwarded_request_not_delimited`).
-/

namespace Balancer

open BlockIO Http11 TRequestParseContextHard THttpModule

/-! ### Accepted requests -/

namespace THttpModule

variable {σ : Type} [IIoInput σ] {it it' : TStreamIterator σ} {rest : List UInt8}
  {f : Option TException}

theorem parsedRequest_encode {h : Head} (H : it.Holds (h.encode ++ rest) f) {maxLen : Nat}
    (hmax : maxLen = 0 ∨ (h.encode ++ rest).length < maxLen) :
    ∃ r it', parsedRequest maxLen it = (.ok r, it') ∧ r.flat = flatHead h ∧ it'.Holds rest f := by
  rcases hmax with rfl | hlt
  · have hp := Ready.init.parse (TStreamIterator.Holds.steady f) rfl H
    rw [FlatState.run_encode] at hp
    obtain ⟨ctx, it₁, ys, hp, hreq, hu, rfl, H₁⟩ := hp
    exact ⟨ctx.request, it₁.unGet ctx.unparsed, by simp [parsedRequest, hp], hreq, H₁.unGet hu⟩
  · have hmax : maxLen ≠ 0 := by omega
    have hP : Steady Proper f fun (it : TStreamIterator σ) xs => it.Holds xs f :=
      TStreamIterator.Holds.steady f
    have hp : ParseInputSpec _ f _ (({} : TRequestParseContextHard).parse
        (TLengthLimitedInput.mk it maxLen (some (.httpParseError 413 "too big request")))) :=
      Ready.init.parse (TLengthLimitedInput.steady_below hP) rfl ⟨H, hlt⟩
    rw [FlatState.run_encode] at hp
    obtain ⟨ctx, lim, ys, hp, hreq, hu, rfl, H₁, -⟩ := hp
    exact ⟨ctx.request, lim.s.unGet ctx.unparsed, by simp [parsedRequest, hmax, hp], hreq,
      H₁.unGet hu⟩

end THttpModule

/-- `Parse` on an input whose lists are cut from the front of `xs`, and which may throw at any time:
a request that it returns is the one at the front of `xs`. -/
theorem Ready.parse_ok {σ : Type} [IIoInput σ] {P : σ → List UInt8 → Prop} (hP : Serves P)
    {s : FlatState} {ctx ctx' : TRequestParseContextHard} {src src' : σ} (H : Ready s ctx)
    (h : P src xs) (hok : ctx.parse src = (.ok ctx', src')) :
    ∃ tail, s.run xs = .done ctx'.request.flat tail := by
  induction hn : Source.turns src using Nat.strongRecOn generalizing s ctx src xs with
  | ind n ih =>
    rcases hr : Source.recv src with ⟨e | l, src₁⟩
    · rw [parse_error hr] at hok
      cases hok
    · by_cases h0 : l.flatten = []
      · rw [parse_incomplete hr h0] at hok
        cases hok
      · obtain ⟨ys, rfl, h₁⟩ := hP src xs l src₁ h hr h0
        rw [parse_cons hr h0] at hok
        rw [FlatState.run_append]
        have hx := H.parseChunk l
        revert hx
        cases s.run l.flatten with
        | error =>
          intro hx
          rw [show ctx.parseChunk l = _ from hx] at hok
          cases hok
        | more s₁ =>
          rintro ⟨ctx₁, hx, -, H₁⟩
          rw [hx] at hok
          have hlt := Source.turns_lt (congrArg Prod.fst hr) (HasData.ne_nil h0)
          rw [hr] at hlt
          exact ih _ (hn ▸ hlt) H₁ h₁ hok rfl
        | done req tail =>
          rintro ⟨ctx₁, u, hx, rfl, -⟩
          rw [hx] at hok
          cases hok
          exact ⟨tail ++ ys, rfl⟩

namespace THttpModule

variable {σ : Type} [IIoInput σ] {it it' : TStreamIterator σ} {xs : List UInt8}
  {f : Option TException}

theorem parsedRequest_run (H : it.Holds xs f) {maxLen : Nat} {r : TRequest}
    (hp : parsedRequest maxLen it = (.ok r, it')) :
    ∃ tail, ({} : FlatState).run xs = .done r.flat tail := by
  have hP : Serves fun (it : TStreamIterator σ) xs => it.Holds xs f :=
    (TStreamIterator.Holds.steady f).serves
  unfold parsedRequest at hp
  split at hp
  · split at hp
    · cases hp
    · next ctx lim hparse =>
      cases hp
      exact Ready.parse_ok (TLengthLimitedInput.serves hP) Ready.init ⟨rfl, .inr H⟩ hparse
  · split at hp
    · cases hp
    · next ctx it₁ hparse =>
      cases hp
      exact Ready.parse_ok hP Ready.init H hparse

/-- The request of a context is the one that the client wrote. -/
theorem parsedRequest_flat {h : Head} {rest : List UInt8} (H : it.Holds (h.encode ++ rest) f)
    {maxLen : Nat} {r : TRequest} (hp : parsedRequest maxLen it = (.ok r, it')) :
    r.flat = flatHead h := by
  obtain ⟨tail, hr⟩ := parsedRequest_run H hp
  rw [FlatState.run_encode] at hr
  exact (FlatRun.done.inj hr).1.symm

end THttpModule

/-! ### The version of a request -/

namespace TRequestParseContextHard

/-- No part of the request line is empty. -/
def LineParts (ctx : TRequestParseContextHard) : Prop := ∀ c ∈ ctx.request.request, c ≠ []

variable {ctx ctx' : TRequestParseContextHard} {cur : TChunk}

theorem LineParts.addPartToTok (H : ctx.LineParts) {b e : Nat} (he : e ≤ cur.length) :
    (ctx.addPartToTok cur b e).LineParts := by
  unfold TRequestParseContextHard.addPartToTok
  split
  · next t ht =>
    cases t with
    | request =>
      intro c hc
      simp only [TRequest.modifyTok, TChunk.addPartTo] at hc
      split at hc
      · next hbe =>
        rcases List.mem_append.1 hc with hc | hc
        · exact H c hc
        · rw [List.mem_singleton.1 hc]
          intro h0
          have := congrArg List.length h0
          simp only [TChunk.subChunk, List.length_drop, List.length_take, List.length_nil] at this
          omega
      · exact H c hc
    | key i | value i => exact H
  · exact H

theorem LineParts.invariant : Invariant LineParts where
  act a hp H := by
    cases a with
    | endOfToken => exact LineParts.addPartToTok H hp
    | _ => exact H
  add H := H.addPartToTok (Nat.le_refl _)
  store _ H := H
  rest H := H

theorem parse_lineParts {σ : Type} [IIoInput σ] {src : σ}
    (h : (({} : TRequestParseContextHard).parse src).1 = .ok ctx') : ctx'.LineParts := by
  have h0 : LineParts {} := by
    intro c hc
    cases hc
  exact (parse_induction (R := fun ctx _ => ctx.LineParts) (fun _ _ H => H)
    (fun _ _ _ _ _ H _ hp => LineParts.invariant.parseChunk H hp) h0).2 ctx' h

end TRequestParseContextHard

/-- `HttpVersion` looks at the last byte of the request line, as its parts are not empty. -/
theorem httpVersion_eq_zero_iff {req : TChunkList} (h : ∀ c ∈ req, c ≠ []) :
    httpVersion req = 0 ↔ ∀ b ∈ req.flatten.getLast?, b = 48 := by
  rcases List.eq_nil_or_concat req with rfl | ⟨ls, last, rfl⟩
  · simp [httpVersion]
  · obtain ⟨cs, b, rfl⟩ : ∃ cs b, last = cs ++ [b] := by
      rcases List.eq_nil_or_concat last with rfl | ⟨cs, b, rfl⟩
      · exact absurd rfl (h [] (by simp))
      · exact ⟨cs, b, by simp⟩
    have hlast : ((ls ++ [cs ++ [b]]) : TChunkList).flatten.getLast? = some b := by simp
    have hval : charToInt b = 48 ↔ b = 48 := by
      rw [← UInt8.toNat_inj]
      unfold charToInt
      have := b.toNat_lt
      split <;> simp <;> omega
    have hrange : -128 ≤ charToInt b ∧ charToInt b < 128 := by
      unfold charToInt
      have := b.toNat_lt
      split <;> omega
    rw [List.concat_eq_append, hlast]
    simp only [httpVersion, List.getLast?_concat, Option.mem_some_iff, forall_eq', ← hval]
    omega

namespace THttpModule

theorem parsedRequest_lineParts {σ : Type} [IIoInput σ] {it it' : TStreamIterator σ} {maxLen : Nat}
    {r : TRequest} (hp : parsedRequest maxLen it = (.ok r, it')) : ∀ c ∈ r.request, c ≠ [] := by
  unfold parsedRequest at hp
  split at hp
  · split at hp
    · cases hp
    · next h =>
      cases hp
      exact parse_lineParts (congrArg Prod.fst h)
  · split at hp
    · cases hp
    · next h =>
      cases hp
      exact parse_lineParts (congrArg Prod.fst h)

/-- A request is answered in chunks and kept alive unless its line ends with `0`. -/
theorem parsedRequest_version_iff {σ : Type} [IIoInput σ] {it it' : TStreamIterator σ}
    {maxLen : Nat} {r : TRequest} (hp : parsedRequest maxLen it = (.ok r, it')) :
    r.requestProperties.1.chunkedTransfer = r.requestProperties.1.keepAlive ∧
      (r.requestProperties.1.keepAlive = true ↔ ¬∀ b ∈ r.flat.request.getLast?, b = 48) := by
  refine ⟨rfl, ?_⟩
  rw [show r.flat.request = r.request.flatten from rfl,
    ← httpVersion_eq_zero_iff (parsedRequest_lineParts hp)]
  simp [TRequest.requestProperties]

theorem parsedRequest_version {σ : Type} [IIoInput σ] {it it' : TStreamIterator σ} {maxLen : Nat}
    {r : TRequest} (hp : parsedRequest maxLen it = (.ok r, it')) {line : List UInt8} {b : UInt8}
    (hline : r.flat.request = line ++ [b]) (hb : b ≠ 48) :
    r.requestProperties.1.keepAlive = true ∧ r.requestProperties.1.chunkedTransfer = true := by
  obtain ⟨hch, hka⟩ := parsedRequest_version_iff hp
  rw [hch, hka, hline]
  simpa using hb

end THttpModule

/-! ### What a backend is sent -/

/-- `Connection: Close` -/
def connectionClose : Field := .ofAscii "Connection" " Close" (by decide) (by decide) (by decide)

/-- The bytes that a backend has been sent when the worker for a request is done; `backEnd` are the
faults of its socket. -/
def backEndBytes {σ : Type} [IIoInput σ] (request : TRequest) (input : σ)
    (backEnd : List (Option TException)) : List UInt8 :=
  ((TWorker.run (proxyInput request input)).run TNullStream.mk (⟨[], backEnd⟩ : TWire)).2.2.accepted

/-- A message whose own fields delimit exactly the body `body`. -/
def Delimits (xs body : List UInt8) : Prop :=
  ∃ start fs rest, readHead xs = some (start, fs, rest) ∧
    (framing fs = some (.length body.length) ∧ rest = body ∨
      framing fs = some .chunked ∧ decodeChunked rest = some (body, []))

theorem TWorker.run_cons {ι : Type} [IIoInput ι] {i i' : ι} {lst : TChunkList}
    (hr : Source.recv i = (.ok lst, i')) (hne : lst ≠ []) :
    TWorker.run i = .send lst fun r =>
      match r with
      | .error e => .throw e
      | .ok () => TWorker.run i' := by
  rw [TWorker.run]
  split
  · next h => rw [hr] at h; cases h
  · next h =>
    rw [hr] at h
    cases h
    exact dif_neg hne

/-- A backend gets nothing at all, or the head of the request first. -/
theorem backEndBytes_head {σ : Type} [IIoInput σ] {request : TRequest} (hreq : request.request ≠ [])
    (input : σ) (backEnd : List (Option TException)) :
    backEndBytes request input backEnd = [] ∨
      forwardedHead request <+: backEndBytes request input backEnd := by
  have hrecv : Source.recv (proxyInput request input) =
      (.ok (request.buildTo [ascii "Connection: Close\r\n"]), ⟨⟨none, []⟩, input, .first⟩) := by
    have h : Source.recv (THttpRequestInput.ofRequest request [ascii "Connection: Close\r\n"]) =
        (.ok (request.buildTo [ascii "Connection: Close\r\n"]), ⟨none, []⟩) := by
      simp only [THttpRequestInput.ofRequest, hreq, if_false]
      rfl
    rw [TConcatInput.recv_eq, proxyInput, TConcatInput.doRecv_first, h]
    rw [h]
    simp [TRequest.buildTo]
  have hne : request.buildTo [ascii "Connection: Close\r\n"] ≠ [] := by simp [TRequest.buildTo]
  unfold backEndBytes
  rw [TWorker.run_cons hrecv hne]
  simp only [Prog.run]
  rcases Wire.send_cases (⟨[], backEnd⟩ : TWire)
    (request.buildTo [ascii "Connection: Close\r\n"]) with ⟨hs, ha⟩ | ⟨e, hs, ha⟩
  · refine .inr ?_
    rw [hs]
    apply Prog.run_sink (Q := fun t : TWire => forwardedHead request <+: t.accepted)
    · intro t l h
      rcases Wire.send_cases t l with ⟨-, h'⟩ | ⟨e, -, h'⟩
      · rw [h']; exact h.trans (List.prefix_append _ _)
      · rwa [h']
    · rw [ha, forwardedHead, if_neg hreq]
      exact List.prefix_refl _
  · refine .inl ?_
    rw [hs]
    exact ha

/-- The fields that frame a body are among those that are taken out. -/
theorem stripped_unframed (r : FlatRequest) :
    ∀ h ∈ r.stripped.headers, ¬SameName h.1 transferEncoding ∧
      ¬SameName h.1 contentLength := by
  intro h hh
  have hnone : checkedName h.1 = none := by simpa using (List.mem_filter.1 hh).2
  obtain ⟨hte, hcl⟩ := checkedName_iff h.1
  rw [← hte, ← hcl, hnone]
  simp

/-- What a backend is sent of a request without the framing fields. -/
theorem not_delimits {σ : Type} [IIoInput σ] {request : TRequest} (hwf : request.flat.WF)
    (hstripped : ∀ h ∈ request.flat.headers, ¬SameName h.1 transferEncoding ∧
      ¬SameName h.1 contentLength) (input : σ) (backEnd : List (Option TException))
    (body : List UInt8) : ¬Delimits (backEndBytes request input backEnd) body := by
  have hreq : request.request ≠ [] := by
    intro h0
    apply hwf.request_ne
    rw [TRequest.flat, h0]
    rfl
  rintro ⟨start, fs, rest, hread, hframing⟩
  rcases backEndBytes_head hreq input backEnd with h0 | ⟨ys, hys⟩
  · rw [h0] at hread
    cases hread
  · have hcustom : ([ascii "Connection: Close\r\n"] : TChunkList).flatten =
        [connectionClose].flatMap Field.encode := by decide
    rw [← hys, forwardedHead, if_neg hreq, TRequest.buildTo_flatten, readHead_builtHead hwf hcustom]
      at hread
    cases hread
    have hunframed : ∀ name : List UInt8, ¬SameName connectionClose.name name →
        (∀ h ∈ request.flat.headers, ¬SameName h.1 name) →
        ∀ x ∈ request.flat.headers.map (fun h => (h.1, trim h.2)) ++
          [connectionClose].map (fun f => (f.name, f.value)), ¬SameName x.1 name := by
      intro name hclose hrest x hx
      rcases List.mem_append.1 hx with hx | hx
      · obtain ⟨h, hh, rfl⟩ := List.mem_map.1 hx
        exact hrest h hh
      · cases List.mem_singleton.1 hx
        exact hclose
    rw [framing_unframed
      (hunframed _ (by decide) fun h hh => (hstripped h hh).1)
      (hunframed _ (by decide) fun h hh => (hstripped h hh).2)] at hframing
    rcases hframing with ⟨hf, -⟩ | ⟨hf, -⟩ <;> cases hf

/-- The request that the inner module of the http module gets. -/
theorem requestProperties_wf {r : TRequest} {h : Head} (hflat : r.flat = flatHead h) :
    r.requestProperties.2.flat.WF ∧
      ∀ x ∈ r.requestProperties.2.flat.headers, ¬SameName x.1 transferEncoding ∧
        ¬SameName x.1 contentLength := by
  have hstripped : r.requestProperties.2.flat = (flatHead h).stripped := by
    rw [← hflat]
    exact (responseProperties_flat r).2
  rw [hstripped]
  exact ⟨(flatHead_wf h).filter _, stripped_unframed _⟩

/-- Whatever request the http module accepts, and whatever the backend does: what the backend has
been sent is not a message whose own fields delimit the body of the request. -/
theorem forwarded_request_not_delimited (h : Head) (body rest : List UInt8)
    (c : Cutting (h.encode ++ (body ++ rest))) (f : Option TException) (m : THttpModule)
    (r : TRequest) (it : TStreamIterator TScript)
    (accepted : parsedRequest m.maxLen ⟨c.script f, []⟩ = (.ok r, it))
    (backEnd : List (Option TException)) :
    ¬Delimits (backEndBytes r.requestProperties.2
      (TFixedLengthInput.mk it r.requestProperties.1.contentLength) backEnd) body := by
  have hflat := parsedRequest_flat (.of_yields (c.yields f)) accepted
  obtain ⟨hwf, hstripped⟩ := requestProperties_wf hflat
  exact not_delimits hwf hstripped _ backEnd body

/-- A `Content-Length`, as it is written after the colon. -/
def declaredLength (raw : String) (hraw : (ascii raw).all isText) : Field :=
  .ofAscii "Content-Length" raw (by decide) (by decide) hraw

def postWith (raw : String) (hraw : (ascii raw).all isText) : Head :=
  .ofAscii "POST / HTTP/1.1" [declaredLength raw hraw] (by decide) (by decide)

/-- `POST / HTTP/1.1` with a `Content-Length` of one. -/
def postHead : Head := postWith " 1" (by decide)

/-- The whole request in one chunk. -/
def postCutting (body : List UInt8) : Cutting (postHead.encode ++ (body ++ [])) :=
  .whole (by simp [Head.encode, crlf])

theorem postHead_accepted (body : List UInt8) :
    ∃ r it, parsedRequest 0 ⟨(postCutting body).script none, []⟩ = (.ok r, it) ∧
      r.flat = flatHead postHead := by
  obtain ⟨r, it, hp, hflat, -⟩ := parsedRequest_encode
    (.of_yields ((postCutting body).yields none)) (.inl rfl)
  exact ⟨r, it, hp, hflat⟩

theorem forwarded_request_not_delimited_post :
    ∃ r it, parsedRequest 0 ⟨(postCutting [90]).script none, []⟩ = (.ok r, it) ∧
      ¬Delimits (backEndBytes r.requestProperties.2
        (TFixedLengthInput.mk it r.requestProperties.1.contentLength) []) [90] := by
  obtain ⟨r, it, hp, -⟩ := postHead_accepted [90]
  exact ⟨r, it, hp, forwarded_request_not_delimited postHead [90] [] (postCutting [90]) none {} r it
    hp []⟩

/-- The one byte of the body `A` follows a head that announces no body. -/
theorem post_body_not_delimited :
    ∃ r it, parsedRequest 0 ⟨(postCutting [65]).script none, []⟩ = (.ok r, it) ∧
      r.requestProperties.1.contentLength = 1 ∧
      ¬Delimits (backEndBytes r.requestProperties.2
        (TFixedLengthInput.mk it r.requestProperties.1.contentLength) []) [65] := by
  obtain ⟨r, it, hp, hflat⟩ := postHead_accepted [65]
  obtain ⟨hwf, hstripped⟩ := requestProperties_wf hflat
  have hlen : r.requestProperties.1.contentLength = (flatHead postHead).contentLength := by
    rw [← hflat]
    exact congrArg TResponseProperties.contentLength (responseProperties_flat r).1
  exact ⟨r, it, hp, hlen, not_delimits hwf hstripped _ _ _⟩

end Balancer
