import Balancer.Theory.HttpMessage
import Balancer.Theory.Runs

/-!
# Base64 and hexadecimal

`util/string/base64.cpp` with `base64.h`, and `util/string/hex.h`. A byte that is computed with is
an `int`, with the sign of a `char` where the source has one. What is written to a buffer is a list.
`HexDecode` gets a length and moves a pointer by two; the memory that it reads is a function of the
address, from `in` on, and the addresses are kept.
-/

namespace Balancer

open Http11 (ascii)
open Runs (Turn turns)

/-! ### Base64 -/

namespace Base64

def etabStd : List UInt8 := ascii "ABCDEFGHIJKLMNOPQRSTUVWXYZabcdefghijklmnopqrstuvwxyz0123456789+/"

/-- `base64_etab_url`, "Base64 for url encoding, RFC3548" -/
def etabUrl : List UInt8 := ascii "ABCDEFGHIJKLMNOPQRSTUVWXYZabcdefghijklmnopqrstuvwxyz0123456789-_"

def bkw : List UInt8 :=
  List.replicate 32 0 ++
  [0, 0, 0, 0, 0, 0, 0, 0, 0, 0, 0, 62, 0, 62, 0, 63, 52, 53, 54, 55, 56, 57, 58, 59, 60, 61, 0, 0,
    0, 0, 0, 0] ++
  [0, 0, 1, 2, 3, 4, 5, 6, 7, 8, 9, 10, 11, 12, 13, 14, 15, 16, 17, 18, 19, 20, 21, 22, 23, 24, 25,
    0, 0, 0, 0, 63] ++
  [0, 26, 27, 28, 29, 30, 31, 32, 33, 34, 35, 36, 37, 38, 39, 40, 41, 42, 43, 44, 45, 46, 47, 48,
    49, 50, 51, 0, 0, 0, 0, 0] ++
  List.replicate 128 0

abbrev TInt := BitVec 32

/-- An `unsigned char` as an `int`. -/
def ofUChar (c : UInt8) : TInt := c.toBitVec.setWidth 32

/-- A `char` as an `int`. -/
def ofChar (c : UInt8) : TInt := c.toBitVec.signExtend 32

/-- `char(x)` -/
def toChar (x : TInt) : UInt8 := ⟨x.setWidth 8⟩

/-- `base64_etab[(int)x]` -/
def lookup (etab : List UInt8) (x : TInt) : UInt8 := etab.getD x.toNat 0

/-- What a turn of the loop of `Base64EncodeImpl` writes. -/
def encodeTurn (etab instr : List UInt8) (idx : Nat) : List UInt8 :=
  let int (i : Nat) : TInt := ofUChar (instr.getD i 0)
  if idx % 3 = 0 then [lookup etab ((int idx).sshiftRight 2)]
  else if idx % 3 = 1 then
    let c3 : UInt8 := if idx + 1 < instr.length then instr.getD (idx + 1) 0 else 0
    [lookup etab ((int (idx - 1) <<< 4 &&& 0x30) ||| ((int idx).sshiftRight 4 &&& 0x0f)),
      lookup etab ((int idx <<< 2 &&& 0x3c) ||| ((ofChar c3).sshiftRight 6 &&& 0x03))]
  else [lookup etab (int idx &&& 0x3f)]

/-- What is written behind the loop, where `idx` is the length. -/
def encodeRest (etab : List UInt8) (last : UInt8) (instr : List UInt8) : List UInt8 :=
  let idx := instr.length
  if idx % 3 = 1 then [lookup etab (ofUChar (instr.getD (idx - 1) 0) <<< 4 &&& 0x30), last, last]
  else if idx % 3 = 2 then [last]
  else []

def encodeImpl (urlVersion : Bool) (instr : List UInt8) : List UInt8 :=
  let etab := if urlVersion then etabUrl else etabStd
  let last : UInt8 := if urlVersion then 44 else 61
  (List.range instr.length).flatMap (encodeTurn etab instr) ++ encodeRest etab last instr

def encode (s : List UInt8) : List UInt8 := encodeImpl false s

def encodeUrl (s : List UInt8) : List UInt8 := encodeImpl true s

/-- `base64_bkw[c]` as an `int`. -/
def backward (c : UInt8) : TInt := ofChar (bkw.getD c.toNat 0)

/-- `uudecode_1(dst, src)` -/
def uudecode1 (src₀ src₁ src₂ src₃ : UInt8) : List UInt8 :=
  [toChar (backward src₀ <<< 2 ||| (backward src₁).sshiftRight 4),
    toChar (backward src₁ <<< 4 ||| (backward src₂).sshiftRight 2),
    toChar (backward src₂ <<< 6 ||| backward src₃)]

/-- `while (b < e)`, for a length that four divides. -/
def decodeLoop : List UInt8 → List UInt8
  | b₀ :: b₁ :: b₂ :: b₃ :: b => uudecode1 b₀ b₁ b₂ b₃ ++ decodeLoop b
  | _ => []

def isLast (c : UInt8) : Bool := c = 44 || c = 61

/-- The length that `Base64Decode` returns, after `n` bytes are written. -/
def decodedLength (s : List UInt8) (n : Nat) : Nat :=
  if n > 0 then
    if isLast (s.getD (s.length - 1) 0) then
      if isLast (s.getD (s.length - 2) 0) then n - 1 - 1 else n - 1
    else n
  else n

/-- `Base64Decode(s)` -/
def decode (s : List UInt8) : Except String (List UInt8) :=
  if s.length % 4 ≠ 0 then .error "incorrect input length for base64 decode"
  else
    let dst := decodeLoop s
    .ok (dst.take (decodedLength s dst.length))

end Base64

/-! ### Hexadecimal -/

/-- A `char`, which is signed. -/
def charToInt (b : UInt8) : Int := if b.toNat < 128 then b.toNat else b.toNat - 256

def digitToChar (digit : UInt8) : UInt8 :=
  if digit < 10 then digit + 48 else digit - 10 + 65

/-- `Char2Digit(ch)` -/
def char2Digit (ch : UInt8) : Int :=
  if charToInt ch ≤ 57 then charToInt ch - 48
  else if charToInt ch ≤ 70 then charToInt ch - 65 + 10
  else charToInt ch - 97 + 10

/-- `Stroka2Byte(s)`, with the two characters that it reads. -/
def stroka2Byte (first second : UInt8) : ℤ := char2Digit first * 16 + char2Digit second

/-- `HexEncode(h)` -/
def hexEncode (h : List UInt8) : List UInt8 :=
  h.flatMap fun b => [digitToChar (b / 16), digitToChar (b % 16)]

/-- `b` is relative to `in`; `out` is what is written from `ptr` on. -/
structure THexDecode where
  b : Nat := 0
  out : List UInt8 := []
  reads : List Nat := []
  deriving DecidableEq, Repr

/-- A turn of `while (b != e)`. -/
def hexDecodeTurn (mem : Nat → UInt8) (e : Nat) (s : THexDecode) : Turn (List UInt8) THexDecode :=
  if s.b ≠ e then
    .again { b := s.b + 2,
             out := s.out ++ [UInt8.ofInt (stroka2Byte (mem s.b) (mem (s.b + 1)))],
             reads := s.reads ++ [s.b, s.b + 1] }
  else .exit s.out s

/-- `HexDecode(h)` in `fuel` turns at most; `behind` is what is in the memory behind `h`. -/
def hexDecode (fuel : Nat) (h : List UInt8) (behind : Nat → UInt8) : Turn (List UInt8) THexDecode :=
  turns (hexDecodeTurn (fun i => h.getD i (behind i)) h.length) fuel {}

end Balancer
