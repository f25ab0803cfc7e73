import Balancer.Modules.Spdy.Frames

/-!
# What a SPDY stream sends

`modules/spdy/module.cpp`: `TConnection` as the output of the module that handles its stream. The
response is parsed from the lists that are sent, up to the end of its headers; they leave in a
`SYN_REPLY` frame, and what follows them in `DATA` frames.

`TDeflate` and the connection's own output are outside of the model: a `SYN_REPLY` frame is given by
its name/value block before compression, and every frame is taken by the connection.
-/

namespace Balancer.Spdy

open BlockIO
open Http11 (ascii)

/-- `TSaver::Save` for a `ui16`. -/
def saveUi16 (n : Nat) : List UInt8 := [UInt8.ofNat (n / 256 % 256), UInt8.ofNat (n % 256)]

/-- `SplitRequest(req, status, version)`: the new values of the three lists. -/
def splitRequest (req : TChunkList) : TChunkList × TChunkList × TChunkList :=
  let (version, tmp) := req.split 8
  let (req, status) := TChunkList.split 1 tmp
  (req, status, version)

/-- The order in which the arguments of a call are evaluated. The language leaves it open. -/
inductive EArgumentOrder where
  | leftToRight
  | rightToLeft
  deriving DecidableEq, Repr

/-- What two arguments add to a list. -/
def EArgumentOrder.evaluated {α : Type} (order : EArgumentOrder) (first second : α) : List α :=
  match order with
  | leftToRight => [first, second]
  | rightToLeft => [second, first]

/-- The headers after
`SplitRequest(req.Request(), req.AddHeader("status"), req.AddHeader("version"))`, and what is left
of the request line. -/
def splitHeaders (order : EArgumentOrder) (req : TRequest) : TChunkList × List THeader :=
  let (request, status, version) := splitRequest req.request
  (request, req.headers ++ order.evaluated ⟨[ascii "status"], status⟩ ⟨[ascii "version"], version⟩)

/-- `SaveHeaders(req, lst)`: the block, and what is left of `req`. -/
def saveHeaders (order : EArgumentOrder) (req : TRequest) : List UInt8 × TRequest :=
  let (request, headers) := splitHeaders order req
  (saveUi16 headers.length ++ headers.flatMap fun h =>
      saveUi16 h.key.fullLength ++ h.key.flatten.map Http11.lower ++
        saveUi16 h.value.fullLength ++ h.value.flatten,
    { request, headers := headers.map fun h => { h with value := [] } })

/-- The frames that `TConnection` sends. `length` is the field of the header, which has 24 bits. -/
inductive TOutFrame where
  | synReply (streamID : Nat) (block : List UInt8)
  | data (streamID : Nat) (length : Nat) (data : TChunkList)
  deriving DecidableEq, Repr

/-- The sending side of a `TConnection`, with the frames it has sent. -/
structure TReply where
  streamID : Nat
  order : EArgumentOrder
  c : TPushParseContext := {}
  sent : List TOutFrame := []

namespace TReply

def onData (st : TReply) (lst : TChunkList) : TReply :=
  { st with sent := st.sent ++ [.data st.streamID (lst.fullLength % 2 ^ 24) lst] }

/-- `OnHeaders(C_)`, which also takes the headers apart that `C_` holds. -/
def onHeaders (st : TReply) : TReply :=
  let (block, request) := saveHeaders st.order st.c.ctx.request
  { st with
    c := { st.c with ctx := { st.c.ctx with request } }
    sent := st.sent ++ [.synReply st.streamID block] }

def doSend (st : TReply) (lst : TChunkList) : Except TException Unit × TReply :=
  if st.c.headersParsed then (.ok (), st.onData lst)
  else
    match st.c.parseChunk lst with
    | (.error e, c) => (.error e, { st with c })
    | (.ok (false, _), c) => (.ok (), { st with c })
    | (.ok (true, lst), c) => (.ok (), ({ st with c } : TReply).onHeaders.onData lst)

/-- The `Send` calls of a handler, up to one that throws. -/
def sends (st : TReply) : List TChunkList → Except TException Unit × TReply
  | [] => (.ok (), st)
  | lst :: ls =>
    match st.doSend lst with
    | (.error e, st) => (.error e, st)
    | (.ok (), st) => st.sends ls

end TReply

end Balancer.Spdy
