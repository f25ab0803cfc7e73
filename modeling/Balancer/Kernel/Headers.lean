import Balancer.Kernel.Http
import Balancer.Theory.HttpMessage
import Balancer.Util.Codecs

/-!
# Properties of messages

`kernel/headers.cpp` and `kernel/cast.h`: the headers that the server handles itself are taken out
of a message, and two of them say how its body is framed. Numbers are computed in `size_t`, without
any check of the characters they are made of.
-/

namespace Balancer

open Http11 (ascii lower)

/-- Conversion to `size_t`. -/
def toSizeT (i : Int) : Nat := (i % 2 ^ 64).toNat

/-- `FromString<size_t>(lst)` -/
def fromString (lst : TChunkList) : Nat :=
  lst.foldl (fun ret c => c.foldl (fun ret b => toSizeT (ret * 10 + (charToInt b - 48))) ret) 0

/-- The names in `THeadersToCheck`, in the order in which their regexps are numbered. -/
def headersToCheck : List (List UInt8) :=
  [ascii "Connection", ascii "Keep-Alive", ascii "Content-Length", ascii "Transfer-Encoding",
    ascii "Server"]

/-- The number of the regexp that matches a key, all of it and in either case. -/
def matchedRegexp (key : TChunkList) : Option Nat :=
  headersToCheck.findIdx? fun name => name.map lower == key.flatten.map lower

@[ext] structure TResponseProperties where
  chunkedTransfer : Bool := false
  contentLength : Nat := 0
  deriving DecidableEq, Repr

/-- `TResponseParser`: the properties and the headers that are left. A header that is matched is
deleted, whichever it is. -/
def TResponseParser.parse (props : TResponseProperties) :
    List THeader → TResponseProperties × List THeader
  | [] => (props, [])
  | hdr :: hdrs =>
    match matchedRegexp hdr.key with
    | none =>
      let (props, hdrs) := parse props hdrs
      (props, hdr :: hdrs)
    | some 3 => parse { props with chunkedTransfer := true } hdrs
    | some 2 => parse { props with contentLength := fromString hdr.value } hdrs
    | some _ => parse props hdrs

/-- `TResponseProperties(r)`, with what it leaves of `r`. -/
def TRequest.responseProperties (r : TRequest) : TResponseProperties × TRequest :=
  let (props, headers) := TResponseParser.parse {} r.headers
  (props, { r with headers })

/-- `HttpVersion(req)`: the last character as an `unsigned` digit. -/
def httpVersion (req : TChunkList) : Nat :=
  match req.getLast? with
  | none => 0
  | some last =>
    match last.getLast? with
    | none => 0
    | some b => ((charToInt b - 48) % 2 ^ 32).toNat

structure TRequestProperties where
  keepAlive : Bool
  chunkedTransfer : Bool
  contentLength : Nat
  deriving DecidableEq, Repr

/-- `TRequestProperties(r)`, with what it leaves of `r`. The transfer encoding of a request is read
and dropped. -/
def TRequest.requestProperties (r : TRequest) : TRequestProperties × TRequest :=
  let keepAlive := httpVersion r.request != 0
  let (props, r) := r.responseProperties
  ({ keepAlive, chunkedTransfer := keepAlive, contentLength := props.contentLength }, r)

end Balancer
