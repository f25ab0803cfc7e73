import Balancer.Modules.Spdy.Reply
import Balancer.Kernel.Socket

/-!
# What a SPDY connection sends

`modules/spdy/module.cpp` and `zlib.h`: the words of a frame header, `TDeflate`, and `TProto::Send`,
which saves a frame to a list and passes it to the output of the connection.

The streams of a connection are coroutines that share its `TDeflate` and its `TSocketOut`. No code
between the first byte of a frame and its place in the queue of the socket switches coroutines, so a
call of `Send` is one event, up to the `SleepI` in `Flush`. The library zlib is a parameter.
-/

namespace Balancer.Spdy

open BlockIO Runs
open Http11 (ascii)

/-- `TSaver::Save` for a `ui32`. -/
def saveUi32 (n : Nat) : List UInt8 :=
  [UInt8.ofNat (n / 2 ^ 24 % 256), UInt8.ofNat (n / 2 ^ 16 % 256), UInt8.ofNat (n / 2 ^ 8 % 256),
    UInt8.ofNat (n % 256)]

/-! ### Headers of frames -/

def SYN_REPLY : Nat := 2

/-- All bit fields of a `TControlHeader`; `Loop` uses those of the parent structure. -/
structure TControlFields extends TControlHeader where
  version : Nat
  isControl : Bool

namespace TControlFields

/-- `TControlHeader(type)` -/
def new (type : Nat) : TControlFields where
  type := type % 2 ^ 16
  version := 2
  isControl := true
  length := 0
  flags := 0

def field1 (hdr : TControlFields) : Nat :=
  hdr.type % 2 ^ 16 + hdr.version % 2 ^ 15 * 2 ^ 16 + hdr.isControl.toNat * 2 ^ 31

def field2 (hdr : TControlFields) : Nat := hdr.length % 2 ^ 24 + hdr.flags % 2 ^ 8 * 2 ^ 24

def ofFields (field1 field2 : Nat) : TControlFields where
  toTControlHeader := .ofFields field1 field2
  version := field1 / 2 ^ 16 % 2 ^ 15
  isControl := field1 / 2 ^ 31 % 2 = 1

/-- `TControlHeader(field, it)` -/
def read {σ : Type} [IIoInput σ] (field : Nat) : TReader σ TControlFields := do
  return ofFields field (← readToken 4)

def save (hdr : TControlFields) : TChunkList := [saveUi32 hdr.field1, saveUi32 hdr.field2]

end TControlFields

structure TDataFrame where
  streamID : Nat
  isControl : Bool
  length : Nat
  flags : Nat
  data : TChunkList

namespace TDataFrame

/-- `TDataFrame(field, it)` -/
def read {σ : Type} [IIoInput σ] (field : Nat) : TReader σ TDataFrame := do
  let field2 ← readToken 4
  let data ← .of (·.readList (field2 % 2 ^ 24))
  return {
    streamID := field % 2 ^ 31
    isControl := field / 2 ^ 31 % 2 = 1
    length := field2 % 2 ^ 24
    flags := field2 / 2 ^ 24
    data }

/-- `TDataFrame(id, data)`. The length is set by `Save`. -/
def new (id : Nat) (data : TChunkList) : TDataFrame where
  streamID := id % 2 ^ 31
  isControl := false
  length := 0
  flags := 0
  data := data

/-- `TDataFrame(id)` -/
def fin (id : Nat) : TDataFrame := { new id [] with flags := FLAG_FIN }

def field1 (frame : TDataFrame) : Nat := frame.streamID % 2 ^ 31 + frame.isControl.toNat * 2 ^ 31

def field2 (frame : TDataFrame) : Nat := frame.length % 2 ^ 24 + frame.flags % 2 ^ 8 * 2 ^ 24

def save (frame : TDataFrame) : TChunkList :=
  let frame := { frame with length := frame.data.fullLength % 2 ^ 24 }
  [saveUi32 frame.field1, saveUi32 frame.field2] ++ frame.data

end TDataFrame

/-! ### `TDeflate` -/

inductive ZFlush where
  | noFlush
  | syncFlush
  deriving DecidableEq, Repr

def Z_OK : Int := 0

/-- What a call of `deflate` returns, what it wrote, what is left of the input, and the new
state. -/
structure ZResult (ζ : Type) where
  rv : Int
  out : List UInt8
  rest : List UInt8
  strm : ζ

/-- The library, for streams with the states `ζ`. `availOut strm len` is the length, as a `uInt`, of
the chunk that is allocated for `deflateBound(strm, len)` bytes; the allocator may round it up. -/
structure ZLib (ζ : Type) where
  availOut : ζ → Nat → Nat
  deflate : ZFlush → (room : Nat) → (input : List UInt8) → ζ → ZResult ζ

/-- A `TDeflate`: the state of its stream, and the input that the last call has left. -/
structure TDeflate (ζ : Type) where
  strm : ζ
  input : List UInt8 := []

namespace TDeflate

variable {ζ : Type} (Z : ZLib ζ)

/-- The loop of `Compress`, with what was written to the chunk of `room` bytes so far. The length of
the input is a `uInt`. -/
def deflateChunks (room : Nat) : TChunkList → List UInt8 → TDeflate ζ →
    Except TException (List UInt8) × TDeflate ζ
  | [], out, d => (.ok out, d)
  | c :: lst, out, d =>
    let r := Z.deflate .noFlush (room - out.length) (c.take (c.length % 2 ^ 32)) d.strm
    if r.rv ≠ Z_OK then
      (.error (.yexception ("deflate error(" ++ toString r.rv ++ ")")), ⟨r.strm, r.rest⟩)
    else deflateChunks room lst (out ++ r.out) ⟨r.strm, r.rest⟩

/-- `Compress(lst)`. When it throws, the stream keeps the input that it has taken. -/
def compress (lst : TChunkList) (d : TDeflate ζ) : Except TException TChunkList × TDeflate ζ :=
  let room := Z.availOut d.strm lst.fullLength
  match deflateChunks Z room lst [] d with
  | (.error e, d) => (.error e, d)
  | (.ok out, d) =>
    let r := Z.deflate .syncFlush (room - out.length) d.input d.strm
    if r.rv ≠ Z_OK then
      (.error (.yexception ("deflate flush error(" ++ toString r.rv ++ ")")), ⟨r.strm, r.rest⟩)
    else (.ok [out ++ r.out], ⟨r.strm, r.rest⟩)

end TDeflate

/-! ### Frames -/

inductive EErrorCode where
  | protocolError
  | internalError
  deriving DecidableEq, Repr

def EErrorCode.toNat : EErrorCode → Nat
  | protocolError => 1
  | internalError => 6

/-- `SaveHeaders(req, lst)`: the chunks of the block. `SaveLowerCase` copies a key to one chunk. -/
def headerChunks (order : EArgumentOrder) (req : TRequest) : TChunkList :=
  let (_, headers) := splitHeaders order req
  saveUi16 headers.length :: headers.flatMap fun h =>
    [saveUi16 h.key.fullLength, h.key.flatten.map Http11.lower, saveUi16 h.value.fullLength] ++
      h.value

theorem headerChunks_flatten (order : EArgumentOrder) (req : TRequest) :
    (headerChunks order req).flatten = (saveHeaders order req).1 := by
  simp only [headerChunks, saveHeaders, List.flatten_cons]
  refine congrArg (saveUi16 _ ++ ·) ?_
  generalize (splitHeaders order req).2 = headers
  induction headers with
  | nil => rfl
  | cons h headers ih =>
    rw [List.flatMap_cons, List.flatMap_cons, List.flatten_append, ih]
    simp

/-- The calls of `Send`: `OnData`, `SendFin`, `OnHeaders` and `SendRst`. -/
inductive TSend where
  | data (id : Nat) (lst : TChunkList)
  | fin (id : Nat)
  | synReply (id : Nat) (order : EArgumentOrder) (headers : TRequest)
  | rst (id : Nat) (code : EErrorCode)

/-- `Send(t)` for a control frame, from the list that `t.Save` has filled. -/
def sendControl (type : Nat) (lst : TChunkList) : TChunkList :=
  let hdr := { TControlFields.new type with length := lst.fullLength % 2 ^ 24 }
  hdr.save ++ lst

/-- The list that a call of `Send` passes to the output, if it gets so far. -/
def TSend.save {ζ : Type} (Z : ZLib ζ) (d : TDeflate ζ) :
    TSend → Except TException TChunkList × TDeflate ζ
  | data id lst => (.ok (TDataFrame.new id lst).save, d)
  | fin id => (.ok (TDataFrame.fin id).save, d)
  | synReply id order headers =>
    match d.compress Z (headerChunks order headers) with
    | (.error e, d) => (.error e, d)
    | (.ok tmp, d) => (.ok (sendControl SYN_REPLY ([saveUi32 id, saveUi16 0] ++ tmp)), d)
  | rst id code => (.ok (sendControl RST_STREAM [saveUi32 id, saveUi32 code.toNat]), d)

/-! ### The sending side of `TProto` -/

/-- A call of `Send` in the coroutine `c`, and what it passed to the output or threw before that. -/
structure TCall where
  c : Nat
  frame : TSend
  saved : Except TException TChunkList

/-- What the streams of a connection share for sending, with the calls of `Send` so far. -/
structure TProtoOut (ζ : Type) where
  deflate : TDeflate ζ
  socket : TSocketState
  calls : List TCall := []

inductive TOutEvent where
  | send (c : Nat) (frame : TSend)
  | flush (c : Nat)
  | resume (c keep : Nat)
  | onPollEvent (status : Int) (wr : TWriteV)

namespace TProtoOut

variable {ζ : Type} (Z : ZLib ζ)

def init (strm : ζ) (maxInQueue : Nat) : TProtoOut ζ :=
  { deflate := ⟨strm, []⟩, socket := .init maxInQueue }

/-- `Send(frame)` in the coroutine `c`, up to the `SleepI` in `Flush`. A `TSocketOut` whose socket
has failed throws after it has queued the list. -/
def send (c : Nat) (frame : TSend) (p : TProtoOut ζ) : Option (TProtoOut ζ) :=
  match frame.save Z p.deflate with
  | (.error e, deflate) => some { p with deflate, calls := p.calls ++ [⟨c, frame, .error e⟩] }
  | (.ok lst, deflate) =>
    (p.socket.step (.doSend c lst)).map fun r =>
      { deflate, socket := r.2, calls := p.calls ++ [⟨c, frame, .ok lst⟩] }

/-- An event of the socket that is no part of a `Send`. -/
def socketStep (p : TProtoOut ζ) (ev : TSocketEvent) : Option (TProtoOut ζ) :=
  (p.socket.step ev).map fun r => { p with socket := r.2 }

def system : System (TProtoOut ζ) TOutEvent where
  step p
    -- a coroutine that sleeps in `Flush` sends nothing
    | .send c frame => if ∀ s ∈ p.socket.sleeping, s.1 ≠ c then p.send Z c frame else none
    | .flush c => p.socketStep (.flush c)
    | .resume c keep => p.socketStep (.resume c keep)
    | .onPollEvent status wr => p.socketStep (.onPollEvent status wr)

/-- The bytes that were queued for the socket. -/
def wire (p : TProtoOut ζ) : List UInt8 := p.socket.accepted ++ p.socket.out.w.flatten

end TProtoOut

end Balancer.Spdy
