import Balancer.Kernel.Alloc
import Balancer.Modules.Spdy.Output

/-!
# `TInflate`

`modules/spdy/zlib.h`: how the header block of a `SYN_STREAM` frame is decompressed. The chunk for
the text is allocated once, in proportion to the compressed block; the library is called once for
each chunk of the block, and what it leaves of the chunk is not looked at.
-/

namespace Balancer.Spdy

open Http11 (ascii)

def Z_NEED_DICT : Int := 2

/-- The library, for streams with the states `ι`. `adler strm` is the field of `z_stream`. -/
structure ZInflateLib (ι : Type) where
  adler32 : List UInt8 → Nat
  adler : ι → Nat
  inflate : (room : Nat) → (input : List UInt8) → ι → ZResult ι
  inflateSetDictionary : (dict : List UInt8) → ι → Int × ι

namespace TDicts

def dict : List UInt8 :=
  ascii "optionsgetheadpostputdeletetraceacceptaccept-charsetaccept-encodingaccept-" ++
  ascii "languageauthorizationexpectfromhostif-modified-sinceif-matchif-none-matchi" ++
  ascii "f-rangeif-unmodifiedsincemax-forwardsproxy-authorizationrangerefererteuser" ++
  ascii "-agent10010120020120220320420520630030130230330430530630740040140240340440" ++
  ascii "5406407408409410411412413414415416417500501502503504505accept-rangesageeta" ++
  ascii "glocationproxy-authenticatepublicretry-afterservervarywarningwww-authentic" ++
  ascii "ateallowcontent-basecontent-encodingcache-controlconnectiondatetrailertran" ++
  ascii "sfer-encodingupgradeviawarningcontent-languagecontent-lengthcontent-locati" ++
  ascii "oncontent-md5content-rangecontent-typeetagexpireslast-modifiedset-cookieMo" ++
  ascii "ndayTuesdayWednesdayThursdayFridaySaturdaySundayJanFebMarAprMayJunJulAugSe" ++
  ascii "pOctNovDecchunkedtext/htmlimage/pngimage/jpgimage/gifapplication/xmlapplic" ++
  ascii "ation/xhtmltext/plainpublicmax-agecharset=iso-8859-1utf-8gzipdeflateHTTP/1" ++
  ascii ".1statusversionurl" ++ [0]

/-- `Find(id)`. There is one dictionary. -/
def find {ι : Type} (Z : ZInflateLib ι) (id : Nat) : Option (List UInt8) :=
  if id = Z.adler32 dict then some dict else none

end TDicts

/-- A `TInflate`: the state of its stream, and the input that the last call of the library has
left. -/
structure TInflate (ι : Type) where
  strm : ι
  input : List UInt8 := []
  deriving DecidableEq, Repr

namespace TInflate

variable {ι : Type} (Z : ZInflateLib ι)

/-- One turn of the loop of `Decompress`: the value of `rv` at its end, and what was written. -/
def inflateChunk (room : Nat) (c : TChunk) (d : TInflate ι) : Int × List UInt8 × TInflate ι :=
  let r := Z.inflate room (c.take (c.length % 2 ^ 32)) d.strm
  if r.rv = Z_NEED_DICT then
    match TDicts.find Z (Z.adler r.strm) with
    | none => (r.rv, r.out, ⟨r.strm, r.rest⟩)
    | some dict =>
      let x := Z.inflateSetDictionary dict r.strm
      if x.1 = Z_OK then
        let r' := Z.inflate (room - r.out.length) r.rest x.2
        (r'.rv, r.out ++ r'.out, ⟨r'.strm, r'.rest⟩)
      else (x.1, r.out, ⟨x.2, r.rest⟩)
  else (r.rv, r.out, ⟨r.strm, r.rest⟩)

/-- The loop, with what was written to the chunk of `room` bytes so far. -/
def inflateChunks (room : Nat) : TChunkList → List UInt8 → TInflate ι →
    Except TException (List UInt8) × TInflate ι
  | [], out, d => (.ok out, d)
  | c :: lst, out, d =>
    let x := inflateChunk Z (room - out.length) c d
    if x.1 ≠ Z_OK then (.error (.yexception ("inflate error(" ++ toString x.1 ++ ")")), x.2.2)
    else inflateChunks room lst (out ++ x.2.1) x.2.2

/-- `Ctx.avail_out` at the start of `Decompress(lst)`, which is a `uInt`. -/
def availOut (lst : TChunkList) : Nat := newChunkLength (lst.fullLength * 4) % 2 ^ 32

def decompress (lst : TChunkList) (d : TInflate ι) : Except TException TChunkList × TInflate ι :=
  match inflateChunks Z (availOut lst) lst [] d with
  | (.error e, d) => (.error e, d)
  | (.ok out, d) => (.ok [out], d)

/-- The calls for the blocks of a connection, with the state that each leaves. What a call throws
ends the loop of the connection. -/
def decompressAll : List TChunkList → TInflate ι → List (Except TException TChunkList × TInflate ι)
  | [], _ => []
  | lst :: lsts, d =>
    match decompress Z lst d with
    | (.error e, d) => [(.error e, d)]
    | (.ok text, d) => (.ok text, d) :: decompressAll lsts d

end TInflate

end Balancer.Spdy
