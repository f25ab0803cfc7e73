import Balancer.Kernel.Http
import Balancer.Theory.HttpMessage

/-!
# SPDY frames

`modules/spdy/module.cpp`: how a frame is read from the connection. Integers are in network order;
the bit fields of a header are taken from the words that they share, the first one declared from the
lowest bits. The fields of a name/value block are length-prefixed, so they can hold any byte.

`TInflate` is outside of the model: `inflate` is what `Decompress` does in the state that its
context has.
-/

namespace Balancer.Spdy

open BlockIO
open Http11 (ascii)

/-! ### `TStringBuf` -/

namespace TStringBuf

def splitImpl (delim : UInt8) (s : List UInt8) : Option (List UInt8 × List UInt8) :=
  (s.findIdx? (· == delim)).map fun pos => (s.take pos, s.drop (pos + 1))

def split (delim : UInt8) (s : List UInt8) : List UInt8 × List UInt8 :=
  (splitImpl delim s).getD (s, [])

def after (delim : UInt8) (s : List UInt8) : List UInt8 :=
  ((splitImpl delim s).map Prod.snd).getD s

end TStringBuf

/-! ### Tokens -/

/-- Code that reads from an iterator and may throw. -/
abbrev TReader (σ : Type) := ExceptT TException (StateM (TStreamIterator σ))

namespace TReader

variable {σ α β : Type}

/-- Run a reader on an iterator. -/
def apply (x : TReader σ α) (it : TStreamIterator σ) : Except TException α × TStreamIterator σ :=
  x.run.run it

def of (f : TStreamIterator σ → Except TException α × TStreamIterator σ) : TReader σ α :=
  ExceptT.mk f

@[simp] theorem apply_of (f : TStreamIterator σ → Except TException α × TStreamIterator σ)
    (it : TStreamIterator σ) : (of f).apply it = f it := rfl

@[simp] theorem apply_pure (a : α) (it : TStreamIterator σ) :
    (pure a : TReader σ α).apply it = (.ok a, it) := rfl

@[simp] theorem apply_throw (e : TException) (it : TStreamIterator σ) :
    (throw e : TReader σ α).apply it = (.error e, it) := rfl

theorem apply_bind (x : TReader σ α) (f : α → TReader σ β) (it : TStreamIterator σ) :
    (x >>= f).apply it = match x.apply it with
      | (.error e, it) => (.error e, it)
      | (.ok a, it) => (f a).apply it := by
  show (ExceptT.bindCont f (x.apply it).1) (x.apply it).2 = _
  rcases x.apply it with ⟨e | a, it₁⟩ <;> rfl

theorem bind_ok {x : TReader σ α} {f : α → TReader σ β} {it it' : TStreamIterator σ} {b : β}
    (h : (x >>= f).apply it = (.ok b, it')) :
    ∃ a it₁, x.apply it = (.ok a, it₁) ∧ (f a).apply it₁ = (.ok b, it') := by
  rw [apply_bind] at h
  rcases hx : x.apply it with ⟨e | a, it₁⟩
  · rw [hx] at h
    cases h
  · rw [hx] at h
    exact ⟨a, it₁, rfl, h⟩

end TReader

variable {σ : Type} [IIoInput σ]

def inetToHost (bs : List UInt8) : Nat := bs.foldl (fun n b => n * 256 + b.toNat) 0

/-- `ReadToken<T>` for an integer of `size` bytes. -/
def readToken (size : Nat) : TReader σ Nat := do
  return inetToHost (← .of (·.read size))

def readString : TReader σ TChunkList := do
  let len ← readToken 2
  .of (·.readList len)

/-! ### `THeadersBlock` -/

/-- `SplitUrl`: what is pushed to the host and to the request. The byte in front of a request that
is not empty is the slash. -/
def splitUrl (url : TChunkList) : TChunkList × TChunkList :=
  match url with
  | [chunk] =>
    let data := (TStringBuf.after 58 chunk).drop 2
    let (hoststr, reqstr) := TStringBuf.split 47 data
    ([hoststr], [if reqstr.isEmpty then ascii "/" else 47 :: reqstr])
  | _ => ([], [])

namespace THeadersBlock

/-- The variables of `Parse`, and the headers of the request. -/
structure Fields where
  method : TChunkList := []
  request : TChunkList := []
  version : TChunkList := []
  headers : List THeader := []

/-- The body of the loop of `Parse`, for a field that was read. -/
def parseField (st : Fields) (key value : TChunkList) : Fields :=
  if key.flatten = ascii "method" then { st with method := value }
  else if key.flatten = ascii "url" then
    let (host, request) := splitUrl value
    { st with headers := st.headers ++ [⟨[ascii "host"], host⟩], request := st.request ++ request }
  else if key.flatten = ascii "version" then { st with version := value }
  else { st with headers := st.headers ++ [⟨key, value⟩] }

def parseFields : Nat → Fields → TReader σ Fields
  | 0, st => pure st
  | fields + 1, st => do
    let key ← readString
    let value ← readString
    parseFields fields (parseField st key value)

def parse : TReader σ TRequest := do
  let fields ← readToken 2
  let st ← parseFields fields {}
  if st.method = [] then throw (.yexception "no method")
  if st.request = [] then throw (.yexception "no request")
  if st.version = [] then throw (.yexception "no version")
  return {
    request := st.method ++ [ascii " "] ++ st.request ++ [ascii " "] ++ st.version
    headers := st.headers }

end THeadersBlock

/-! ### Frames -/

def SYN_STREAM : Nat := 1
def RST_STREAM : Nat := 3
def FLAG_FIN : Nat := 1

structure TControlHeader where
  type : Nat
  length : Nat
  flags : Nat

def TControlHeader.ofFields (field1 field2 : Nat) : TControlHeader where
  type := field1 % 2 ^ 16
  length := field2 % 2 ^ 24
  flags := field2 / 2 ^ 24

def isFin (flags : Nat) : Bool := flags &&& FLAG_FIN != 0

/-- What `Loop` tells apart. -/
inductive TFrame where
  | synStream (streamID : Nat) (fin : Bool) (headers : TRequest)
  | rstStream (streamID : Nat)
  | data (streamID : Nat) (data : TChunkList) (fin : Bool)
  | other
  deriving DecidableEq, Repr

variable (inflate : TChunkList → Except TException TChunkList)

/-- `TSynStreamFrame`. The length of the block is computed in `int` and passed as a `size_t`. -/
def readSynStream (ctl : TControlHeader) : TReader σ TFrame := do
  let streamID ← readToken 4
  let _assocID ← readToken 4
  let _field3 ← readToken 2
  let tmp ← .of (·.readList ((ctl.length + 2 ^ 64 - 10) % 2 ^ 64))
  let block ← .of fun it => (inflate tmp, it)
  let headers ← .of fun it =>
      ((THeadersBlock.parse.apply (⟨{}, block⟩ : TStreamIterator TNullStream)).1, it)
  return .synStream streamID (isFin ctl.flags) headers

def readRstStream : TReader σ TFrame := do
  let streamID ← readToken 4
  let _statusCode ← readToken 4
  return .rstStream streamID

/-- `TDataFrame` -/
def readData (field : Nat) : TReader σ TFrame := do
  let field2 ← readToken 4
  let data ← .of (·.readList (field2 % 2 ^ 24))
  return .data (field % 2 ^ 31) data (isFin (field2 / 2 ^ 24))

/-- One frame, from its first word on. -/
def readFrame : TReader σ TFrame := do
  let field ← readToken 4
  if field / 2 ^ 31 ≠ 0 then
    let ctl := TControlHeader.ofFields field (← readToken 4)
    if ctl.type = SYN_STREAM then readSynStream inflate ctl
    else if ctl.type = RST_STREAM then readRstStream
    else
      let _tmp ← .of (·.readList ctl.length)
      return .other
  else readData field

end Balancer.Spdy
