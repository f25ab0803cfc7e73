import Balancer.Modules.Http.Encoder

/-!
# The http module

`modules/http/module.cpp`: requests are parsed from a connection one after the other, and each is
passed to the inner module with an input that is limited to its body and an output that encodes the
response. What the inner module does is left open: `handlers` has its behaviour for each of the
calls to come, which may depend on the request.
-/

namespace Balancer

open BlockIO TStreamIterator
open Http11 (ascii)

/-! ### `TFixedLengthInput` -/

structure TFixedLengthInput (σ : Type) where
  it : TStreamIterator σ
  len : Nat

namespace TFixedLengthInput

variable {σ : Type} [IIoInput σ]

def doRecv (c : TFixedLengthInput σ) : Except TException TChunkList × TFixedLengthInput σ :=
  if c.len = 0 then (.ok [], c)
  else
    match c.it.nextLen c.len with
    | (.error e, it) => (.error e, { c with it })
    | (.ok lst, it) => (.ok lst, ⟨it, c.len - TChunkList.fullLength lst⟩)

theorem doRecv_zero (it : TStreamIterator σ) : doRecv ⟨it, 0⟩ = (.ok [], ⟨it, 0⟩) := rfl

theorem doRecv_ok {it it' : TStreamIterator σ} {len : Nat} {lst : TChunkList} (hlen : len ≠ 0)
    (h : it.nextLen len = (.ok lst, it')) :
    doRecv ⟨it, len⟩ = (.ok lst, ⟨it', len - TChunkList.fullLength lst⟩) := by
  simp [doRecv, hlen, h]

theorem doRecv_error {it it' : TStreamIterator σ} {len : Nat} (hlen : len ≠ 0)
    (h : it.nextLen len = (.error e, it')) : doRecv ⟨it, len⟩ = (.error e, ⟨it', len⟩) := by
  simp [doRecv, hlen, h]

instance : IIoInput (TFixedLengthInput σ) where
  recv := doRecv
  turns c := c.len + c.it.turns
  turns_le c := by
    obtain ⟨it, len⟩ := c
    by_cases hlen : len = 0
    · subst hlen; exact Nat.le_refl _
    · rcases h : it.nextLen len with ⟨e | lst, it'⟩
      · have := nextLen_turns_le it len
        simp only [h] at this
        rw [doRecv_error hlen h]
        simp only
        omega
      · have := nextLen_turns_le it len
        simp only [h] at this
        rw [doRecv_ok hlen h]
        simp only
        omega
  turns_lt {c l} hr hl := by
    obtain ⟨it, len⟩ := c
    by_cases hlen : len = 0
    · subst hlen; exact absurd (Except.ok.inj hr).symm hl
    · rcases h : it.nextLen len with ⟨e | lst, it'⟩
      · rw [doRecv_error hlen h] at hr; cases hr
      · rw [doRecv_ok hlen h] at hr ⊢
        cases Except.ok.inj hr
        have hle := nextLen_turns_le it len
        simp only [h] at hle
        rw [TChunkList.fullLength_eq]
        simp only
        rcases nextLen_turns_lt h hl with h' | h' <;> omega

theorem recv_eq (c : TFixedLengthInput σ) : Source.recv c = c.doRecv := rfl

end TFixedLengthInput

/-! ### The module -/

/-- The configuration of the module. -/
structure THttpModule where
  maxLen : Nat := 0
  maxReq : Nat := 2 ^ 64 - 1
  keepAlive : Bool := true
  deriving DecidableEq, Repr

/-- A `TContext` that was created: where it started to parse, the request it parsed, and the bytes
that the inner module took from its `Input`. -/
structure TContextRecord (σ : Type) where
  it : TStreamIterator σ
  parsedRequest : Except TException TRequest
  received : List UInt8 := []

/-- The end of `DoRun`, with the contexts it created; `result` is `none` when the inner module is to
be called and there is no behaviour for that call. -/
structure THttpRun (σ τ : Type) where
  contexts : List (TContextRecord σ) := []
  result : Option (Except TException Unit)
  parseErrors : Nat := 0
  discarded : Nat := 0
  it : TStreamIterator σ
  output : τ

/-- What `TContext` pushes to `Headers`. -/
def contextHeaders (keepAlive chunkedTransfer : Bool) : TChunkList :=
  (if keepAlive then [] else [ascii "Connection: Close\r\n"]) ++
    if chunkedTransfer then [ascii "Transfer-Encoding: Chunked\r\n"] else []

namespace THttpModule

variable {σ τ : Type} [IIoInput σ] [IIoOutput τ]

/-- `TParsedRequest(it, maxlen)` -/
def parsedRequest (maxLen : Nat) (it : TStreamIterator σ) :
    Except TException TRequest × TStreamIterator σ :=
  if maxLen ≠ 0 then
    match ({} : TRequestParseContextHard).parse
        (TLengthLimitedInput.mk it maxLen (some (.httpParseError 413 "too big request"))) with
    | (.error e, lim) => (.error e, lim.s)
    | (.ok ctx, lim) => (.ok ctx.request, lim.s.unGet ctx.unparsed)
  else
    match ({} : TRequestParseContextHard).parse it with
    | (.error e, it) => (.error e, it)
    | (.ok ctx, it) => (.ok ctx.request, it.unGet ctx.unparsed)

/-- `RunDecoded()` -/
def runDecoded (handler : TBehaviour) (contentLength : Nat) (it : TStreamIterator σ)
    (out : THttpEncoder τ) : Except TException Unit × TStreamIterator σ × THttpEncoder τ :=
  if contentLength ≠ 0 then
    let (r, c, out) := handler.run (TFixedLengthInput.mk it contentLength) out
    (r, c.it, out)
  else
    let (r, _, out) := handler.run TNullStream.mk out
    (r, it, out)

/-- `RunEncoded<transfer>()` -/
def runEncoded (transfer : TTransfer) (headers : TChunkList) (handler : TBehaviour)
    (contentLength : Nat) (it : TStreamIterator σ) (output : τ) :
    Except TException Unit × TStreamIterator σ × τ :=
  let out : THttpEncoder τ := { transfer, customHeaders := some headers, s := output }
  match runDecoded handler contentLength it out with
  | (.error e, it, out) => (.error e, it, out.s)
  | (.ok (), it, out) =>
    let (r, out) := out.finish
    (r, it, out.s)

/-- `TContext::Run()`: whether the connection is kept alive. -/
def run (m : THttpModule) (handler : TRequest → TBehaviour) (request : TRequest)
    (props : TRequestProperties) (it : TStreamIterator σ) (output : τ) :
    Except TException Bool × TStreamIterator σ × τ :=
  if request.request.fullLength > m.maxReq then
    (.error (.httpParseError 414 "too big url"), it, output)
  else
    let keepAlive := m.keepAlive && props.keepAlive
    let transfer := if props.chunkedTransfer then .chunked else .identity
    let (r, it, output) := runEncoded transfer (contextHeaders keepAlive props.chunkedTransfer)
      (handler request) props.contentLength it output
    (r.map fun _ => keepAlive, it, output)

/-- What the inner module takes from its `Input` in `Run()`. -/
def received (m : THttpModule) (handler : TRequest → TBehaviour) (request : TRequest)
    (props : TRequestProperties) (it : TStreamIterator σ) (output : τ) : List UInt8 :=
  if request.request.fullLength > m.maxReq then []
  else
    let out : THttpEncoder τ := {
      transfer := if props.chunkedTransfer then .chunked else .identity
      customHeaders := some (contextHeaders (m.keepAlive && props.keepAlive) props.chunkedTransfer)
      s := output }
    if props.contentLength ≠ 0 then
      (handler request).received (TFixedLengthInput.mk it props.contentLength) out
    else (handler request).received TNullStream.mk out

/-- `Peek(it)`: an error of the socket counts as the end of the stream. -/
def peek (it : TStreamIterator σ) : Except TException Bool × TStreamIterator σ :=
  match it.peek with
  | (.error e, it) => if e.asSystemError.isSome then (.ok false, it) else (.error e, it)
  | (.ok b, it) => (.ok b, it)

/-- The end of `DoRun` by an exception in the `try` block. -/
def failed (e : TException) (it : TStreamIterator σ) (output : τ) : THttpRun σ τ where
  result := some (.error e)
  parseErrors := match e with
    | .httpParseError _ _ => 1
    | _ => 0
  it
  output

/-- The loop of `DoRun`. -/
def loop (m : THttpModule) (handlers : List (TRequest → TBehaviour)) (it : TStreamIterator σ)
    (output : τ) : THttpRun σ τ :=
  match peek it with
  | (.error e, it) => { result := some (.error e), it, output }
  | (.ok false, it) => { result := some (.ok ()), discarded := 1, it, output }
  | (.ok true, it) =>
    match handlers with
    | [] => { result := none, it, output }
    | handler :: handlers =>
      match parsedRequest m.maxLen it with
      | (.error e, it') =>
        { failed e it' output with contexts := [⟨it, .error e, []⟩] }
      | (.ok r, it') =>
        let (props, request) := r.requestProperties
        let context : TContextRecord σ := ⟨it, .ok r, m.received handler request props it' output⟩
        match m.run handler request props it' output with
        | (.error e, it', output) => { failed e it' output with contexts := [context] }
        | (.ok false, it', output) =>
          { contexts := [context], result := some (.ok ()), it := it', output }
        | (.ok true, it', output) =>
          let next := m.loop handlers it' output
          { next with contexts := context :: next.contexts }

def doRun (m : THttpModule) (handlers : List (TRequest → TBehaviour)) (input : σ) (output : τ) :
    THttpRun σ τ :=
  m.loop handlers ⟨input, []⟩ output

end THttpModule

end Balancer
