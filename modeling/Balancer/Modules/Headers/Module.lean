import Balancer.Kernel.Http
import Balancer.Theory.HttpMessage
import Balancer.Util.Cast

/-!
# The headers module

`modules/headers/module.cpp`: headers are taken out of a request and generated ones are added, and
the generated id may be added to the request line too. A regular expression is what it accepts. The
generators of a module stand in the order in which the hash gives them; a configuration puts them
down as they come. `FormatHost`, the clock and the random number are parameters.
-/

namespace Balancer

open Http11 (ascii)

namespace Headers

def UI64LEN : Nat := 20
def REALIPLEN : Nat := 256
def STARTTIMELEN : Nat := UI64LEN
def REQIDLEN : Nat := 2 * UI64LEN + 1
def PORTLEN : Nat := UI64LEN

/-- `TBufAlloc`, by what is used of it. -/
structure TBuf where
  used : Nat := 0

def TBuf.size : Nat := REALIPLEN + STARTTIMELEN + REQIDLEN + PORTLEN

/-- `Alloc`; there is no result when the assertion fails, and what is written then is behind the
buffer. -/
def TBuf.alloc (buf : TBuf) (len : Nat) : Option TBuf :=
  if len ≤ TBuf.size - buf.used then some { used := buf.used + len } else none

/-- What the generators read. -/
structure TParams where
  realIp : List UInt8
  start : UInt64
  random : UInt64

inductive IHdrGen where
  | realIp
  | startTime
  | reqId
  deriving DecidableEq, Repr

/-- The text of a number: `ToString` and `Out<ui64>` both are `IntToString<10>`, and have room for
it. -/
def toText (n : UInt64) : List UInt8 :=
  (outNumber ⟨.longLong, false⟩ n.toBitVec fun _ => 0).toOption.getD []

namespace IHdrGen

def len : IHdrGen → Nat
  | realIp => REALIPLEN
  | startTime => STARTTIMELEN
  | reqId => REQIDLEN

def text (p : TParams) : IHdrGen → List UInt8
  | realIp => p.realIp
  | startTime => toText p.start
  | reqId => toText p.start ++ 45 :: toText p.random

/-- `Gen` -/
def gen (g : IHdrGen) (p : TParams) (buf : TBuf) : Option (TBuf × TChunk) :=
  (buf.alloc g.len).map fun buf => (buf, g.text p)

end IHdrGen

/-- `AddHeader(key, value)` -/
def addHeader (r : TRequest) (key value : TChunk) : TRequest :=
  { r with headers := r.headers ++ [{ key := [key], value := [value] }] }

/-- What the lists of a request line are called in `DoRun`. -/
inductive TCgiList where
  | method
  | req
  | proto
  deriving DecidableEq

/-- `a - b` for `size_t`. -/
def subSizeT (a b : Nat) : Nat := if b ≤ a then a - b else a + 2 ^ 64 - b

/-- `fix CGI`: the new request line. -/
def fixCGI (request : TChunkList) (reqid : TChunk) : TChunkList :=
  let lists : TCgiList → TChunkList := Function.update (fun _ => []) .req request
  let lists := TChunkList.splitRef 4 .req .method .req lists
  let lists := TChunkList.splitRef (subSizeT (lists .req).fullLength 9) .req .req .proto lists
  lists .method ++ (lists .req ++ [ascii "&reqid="] ++ [reqid]) ++ lists .proto

/-- `keepRealIp` is `KeepRealIpFsm_` with the name of the header. -/
structure TModule where
  generators : List (IHdrGen × TChunk)
  nodup : (generators.map Prod.fst).Nodup
  fsm : List UInt8 → Bool
  keepRealIp : Option ((List UInt8 → Bool) × TChunk) := none
  addReqidToCGI : UInt32 := 0

/-! ### The configuration -/

/-- What the constructor needs: `TFsm(hdr, SetCaseInsensitive(true))`, by what it accepts, and
`Loader->MustLoad(key, ..)`. -/
structure TModuleParams where
  fsm : List UInt8 → Except TException (List UInt8 → Bool)
  mustLoad : String → Except TException Unit

inductive TConfigError where
  /-- What a regular expression or a module throws. -/
  | thrown (e : TException)
  | fromString (e : TFromStringException)
  | configParseError (what : String)
  deriving DecidableEq, Repr

/-- `Generators_[key] = TGenerator(hdr, gen)`; a generator has one key. -/
def setGenerator (gen : IHdrGen) (hdr : TChunk) (gens : List (IHdrGen × TChunk)) :
    List (IHdrGen × TChunk) :=
  if gen ∈ gens.map Prod.fst then gens.map fun g => if g.1 = gen then (gen, hdr) else g
  else gens ++ [(gen, hdr)]

theorem nodup_setGenerator (gen : IHdrGen) (hdr : TChunk) {gens : List (IHdrGen × TChunk)}
    (h : (gens.map Prod.fst).Nodup) : ((setGenerator gen hdr gens).map Prod.fst).Nodup := by
  unfold setGenerator
  split
  · have hkeys : (gens.map fun g => if g.1 = gen then (gen, hdr) else g).map Prod.fst =
        gens.map Prod.fst := by
      rw [List.map_map]
      refine List.map_congr_left fun g _ => ?_
      simp only [Function.comp_apply]
      split
      · next hg => exact hg.symm
      · rfl
    rwa [hkeys]
  · next hmem =>
    rw [List.map_append, List.nodup_append']
    refine ⟨h, List.nodup_singleton gen, fun g hg hgen => hmem ?_⟩
    rwa [show g = gen from List.mem_singleton.1 hgen] at hg

namespace TModule

/-- `Add(key, hdr, gen)` -/
def add (mp : TModuleParams) (m : TModule) (gen : IHdrGen) (hdr : TChunk) :
    Except TConfigError TModule := do
  let fsm ← (mp.fsm hdr).mapError .thrown
  return { m with generators := setGenerator gen hdr m.generators,
                  nodup := nodup_setGenerator gen hdr m.nodup,
                  fsm := if m.generators.isEmpty then fsm else fun key => m.fsm key || fsm key }

/-- `DoConsume(key, value)`, with `value->AsString()` and with `Module_`. -/
def consume (mp : TModuleParams) (state : TModule × Option String) (entry : String × TChunk) :
    Except TConfigError (TModule × Option String) :=
  let (m, module) := state
  let (key, value) := entry
  if key = "realip" then (m.add mp .realIp value).map (·, module)
  else if key = "keep_realip" then do
    let fsm ← (mp.fsm value).mapError .thrown
    return ({ m with keepRealIp := some (fsm, value) }, module)
  else if key = "reqid" then (m.add mp .reqId value).map (·, module)
  else if key = "start" then (m.add mp .startTime value).map (·, module)
  else if key = "add_reqid_to_cgi" then do
    let n ← (intFromString ⟨.int, false⟩ .ten value).mapError .fromString
    return ({ m with addReqidToCGI := ⟨n⟩ }, module)
  else do
    (mp.mustLoad key).mapError .thrown
    return (m, some key)

/-- `TModule(mp)`, for what `ForEach` gives of the configuration. -/
def parse (mp : TModuleParams) (config : List (String × TChunk)) : Except TConfigError TModule := do
  let (m, module) ← config.foldlM (consume mp)
    ({ generators := [], nodup := List.nodup_nil, fsm := fun _ => false }, none)
  if module.isNone then .error (.configParseError "no module configured")
  else if m.generators.isEmpty then .error (.configParseError "no headers configured")
  else return m

/-! ### Running -/

/-- A header that is to be kept is added when there is none. -/
def keepHeader (m : TModule) (p : TParams) (buf : TBuf) (r : TRequest) : Option (TBuf × TRequest) :=
  match m.keepRealIp with
  | none => some (buf, r)
  | some k =>
    if r.headers.any fun h => k.1 h.key.flatten then some (buf, r)
    else (IHdrGen.realIp.gen p buf).map fun g => (g.1, addHeader r k.2 g.2)

/-- The loop over `Generators_`, with `reqidPtr`. -/
def applyGenerators (m : TModule) (p : TParams) :
    List (IHdrGen × TChunk) → TBuf → TRequest → Option TChunk → Option (TRequest × Option TChunk)
  | [], _, r, reqid => some (r, reqid)
  | gen :: gens, buf, r, reqid =>
    (gen.1.gen p buf).bind fun g =>
      applyGenerators m p gens g.1 (addHeader r gen.2 g.2)
        (if m.addReqidToCGI ≠ 0 ∧ gen.1 = .reqId then some g.2 else reqid)

/-- `DoRun`: the request that `Module_` is run with. -/
def doRun (m : TModule) (p : TParams) (r : TRequest) : Option TRequest :=
  (m.keepHeader p {} r).bind fun k =>
    let r := { k.2 with headers := k.2.headers.filter fun h => !m.fsm h.key.flatten }
    (m.applyGenerators p m.generators k.1 r none).map fun g =>
      match g.2 with
      | none => g.1
      | some reqid => { g.1 with request := fixCGI g.1.request reqid }

end TModule

end Headers

end Balancer
