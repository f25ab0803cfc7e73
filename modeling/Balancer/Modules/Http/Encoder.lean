import Balancer.Kernel.Headers

/-!
# Encoding responses

`modules/http/encoder.h`: an output that parses the head of a response from what is sent to it, adds
headers of its own, and passes the body on in the transfer coding of the connection. What the
encoder collects in a call it sends to its slave at the end of that call; the slave takes the chunks
over also when it then throws, so nothing is kept between two calls.
-/

namespace Balancer

open BlockIO

/-- The template argument of `THttpEncoder`. -/
inductive TTransfer where
  /-- `TIdentityTransferEncoder` -/
  | identity
  /-- `TChunkedTransferEncoder` -/
  | chunked
  deriving DecidableEq, Repr

/-- `IntToChar[d]` -/
def intToChar (d : Nat) : UInt8 := UInt8.ofNat (if d < 10 then 48 + d else 55 + d)

/-- `IntToString<16>(t, ...)` -/
def intToString16 (t : Nat) : TChunk :=
  if t < 16 then [intToChar t] else intToString16 (t / 16) ++ [intToChar (t % 16)]

/-- `WriteChunk(lst)`: the chunks it pushes. -/
def writeChunk (lst : TChunkList) : TChunkList :=
  [intToString16 lst.fullLength, CRLF] ++ lst ++ [CRLF]

namespace TTransfer

/-- `OnDataPart(part)`: the chunks it pushes. -/
def onDataPart : TTransfer → TChunkList → TChunkList
  | identity, part => part
  | chunked, part => writeChunk part

/-- `OnFinish()`: the chunks it pushes. -/
def onFinish : TTransfer → TChunkList
  | identity => []
  | chunked => writeChunk []

end TTransfer

/-- `customHeaders` is `none` when the head has been sent. -/
structure THttpEncoder (τ : Type) where
  transfer : TTransfer
  push : TPushParseContext := {}
  customHeaders : Option TChunkList
  s : τ

namespace THttpEncoder

variable {τ : Type} [IIoOutput τ]

/-- `Flush()` of the chunks collected in `out`. -/
def flush (enc : THttpEncoder τ) (out : TChunkList) : Except TException Unit × THttpEncoder τ :=
  if out = [] then (.ok (), enc)
  else
    let (r, s) := Sink.send enc.s out
    (r, { enc with s })

def finish (enc : THttpEncoder τ) : Except TException Unit × THttpEncoder τ :=
  if enc.customHeaders.isSome then (.error (.httpError 500 "malformed http stream"), enc)
  else enc.flush enc.transfer.onFinish

def doSend (enc : THttpEncoder τ) (lst : TChunkList) : Except TException Unit × THttpEncoder τ :=
  match enc.customHeaders with
  | some custom =>
    match enc.push.parseChunk lst with
    | (.error e, push) => (.error e, { enc with push })
    | (.ok (false, _), push) => flush { enc with push } []
    | (.ok (true, lst), push) =>
      flush { enc with push, customHeaders := none }
        (push.ctx.request.buildTo custom ++ if lst = [] then [] else enc.transfer.onDataPart lst)
  | none => enc.flush (enc.transfer.onDataPart lst)

instance : IIoOutput (THttpEncoder τ) where
  send := doSend

end THttpEncoder

end Balancer
