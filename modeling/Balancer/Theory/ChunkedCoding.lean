import Balancer.Theory.HttpMessage

/-!
# The chunked transfer coding

A chunked body as a peer writes it (`Chunk.encode`, `encodeChunked`) and as a strict peer reads it
(`decodeChunked`); `decodeChunked_encode` is the round trip. The reader also takes chunk extensions
and trailer fields, and leaves what follows the body. `readResponses` reads the responses on a
connection by the rules for the length of a message.
-/

namespace Http11

def SEMICOLON : UInt8 := 59

def hexDigit (b : UInt8) : Option Nat :=
  if isDigit b then some (b.toNat - 48)
  else if 65 ≤ b && b ≤ 70 then some (b.toNat - 55)
  else if 97 ≤ b && b ≤ 102 then some (b.toNat - 87)
  else none

def isHexDigit (b : UInt8) : Bool := (hexDigit b).isSome

/-- A hexadecimal number of at least one digit. -/
def readHex (xs : List UInt8) : Option Nat := if xs = [] then none else numeral hexDigit 16 0 xs

/-- The size of a chunk from its size line, which may go on with extensions. -/
def readSize (line : List UInt8) : Option Nat :=
  match line.dropWhile isHexDigit with
  | [] => readHex line
  | c :: _ => if c = SEMICOLON ∨ isBlank c then readHex (line.takeWhile isHexDigit) else none

/-- The data of a chunked body, and what follows the body. -/
def decodeChunked (xs : List UInt8) : Option (List UInt8 × List UInt8) :=
  match _h : readLine xs with
  | none => none
  | some (line, rest) =>
    match readSize line with
    | none => none
    | some 0 => (readFields rest).map fun p => ([], p.2)
    | some n =>
      if (rest.drop n).take 2 = crlf then
        (decodeChunked (rest.drop (n + 2))).map fun p => (rest.take n ++ p.1, p.2)
      else none
termination_by xs.length
decreasing_by
  have := readLine_length _h
  rw [List.length_drop]
  omega

/-! ### Writing -/

/-- A chunk with its size as it is written. -/
structure Chunk where
  size : List UInt8
  ext : List UInt8
  data : List UInt8
  data_ne : data ≠ []
  size_eq : readHex size = some data.length
  ext_semicolon : ∀ b ∈ ext.head?, b = SEMICOLON
  ext_text : ∀ b ∈ ext, isText b

namespace Chunk

def encode (c : Chunk) : List UInt8 := c.size ++ c.ext ++ crlf ++ c.data ++ crlf

end Chunk

/-- The last chunk, whose size is written as zero. -/
structure LastChunk where
  size : List UInt8
  ext : List UInt8
  size_eq : readHex size = some 0
  ext_semicolon : ∀ b ∈ ext.head?, b = SEMICOLON
  ext_text : ∀ b ∈ ext, isText b

/-- A body without trailer fields. -/
def encodeChunked (cs : List Chunk) (last : LastChunk) : List UInt8 :=
  cs.flatMap Chunk.encode ++ (last.size ++ last.ext ++ crlf) ++ crlf

/-! ### Round trip -/

theorem numeral_isSome_digit {digit : UInt8 → Option Nat} {base acc : Nat} {xs : List UInt8}
    (h : (numeral digit base acc xs).isSome) : ∀ b ∈ xs, (digit b).isSome := by
  induction xs generalizing acc with
  | nil => simp
  | cons b bs ih =>
    unfold numeral at h
    split at h
    · cases h
    · next d hd =>
      exact List.forall_mem_cons.2 ⟨by simp [hd], ih h⟩

theorem readHex_isHexDigit {xs : List UInt8} {n : Nat} (h : readHex xs = some n) :
    xs ≠ [] ∧ ∀ b ∈ xs, isHexDigit b := by
  unfold readHex at h
  split at h
  · cases h
  · next hne =>
    have hsome : (numeral hexDigit 16 0 xs).isSome := by rw [h]; rfl
    exact ⟨hne, numeral_isSome_digit hsome⟩

theorem isHexDigit_isText {b : UInt8} (h : isHexDigit b) : isText b := by
  have hcr : b ≠ CR := by rintro rfl; exact absurd h (by decide)
  have hlf : b ≠ LF := by rintro rfl; exact absurd h (by decide)
  simp [isText, hcr, hlf]

theorem readSize_append {size ext : List UInt8} {n : Nat} (h : readHex size = some n)
    (hext : ∀ b ∈ ext.head?, b = SEMICOLON) : readSize (size ++ ext) = some n := by
  have hhex := (readHex_isHexDigit h).2
  rw [readSize, List.dropWhile_append_of_pos hhex, List.takeWhile_append_of_pos hhex]
  cases ext with
  | nil => simpa using h
  | cons c ext =>
    cases hext c rfl
    have hsemi : isHexDigit SEMICOLON = false := rfl
    simpa [hsemi] using h

theorem sizeLine_isText {size ext : List UInt8} {n : Nat} (h : readHex size = some n)
    (hext : ∀ b ∈ ext, isText b) : ∀ b ∈ size ++ ext, isText b :=
  List.forall_mem_append.2 ⟨fun b hb => isHexDigit_isText ((readHex_isHexDigit h).2 b hb), hext⟩

theorem decodeChunked_last (last : LastChunk) (rest : List UInt8) :
    decodeChunked (last.size ++ last.ext ++ crlf ++ (crlf ++ rest)) = some ([], rest) := by
  have hline := readLine_append (sizeLine_isText last.size_eq last.ext_text) (crlf ++ rest)
  have hsize := readSize_append last.size_eq last.ext_semicolon
  rw [decodeChunked]
  split
  · next h => rw [hline] at h; cases h
  · next h =>
    rw [hline] at h
    cases h
    simp [hsize, readFields_nil]

theorem decodeChunked_cons (c : Chunk) {xs body rest : List UInt8}
    (h : decodeChunked xs = some (body, rest)) :
    decodeChunked (c.encode ++ xs) = some (c.data ++ body, rest) := by
  have hline := readLine_append (sizeLine_isText c.size_eq c.ext_text) (c.data ++ crlf ++ xs)
  have hsize := readSize_append c.size_eq c.ext_semicolon
  have hne : c.data.length ≠ 0 := fun h0 => c.data_ne (List.eq_nil_of_length_eq_zero h0)
  have hxs : c.encode ++ xs = c.size ++ c.ext ++ crlf ++ (c.data ++ crlf ++ xs) := by
    simp [Chunk.encode]
  have hdrop : (c.data ++ crlf ++ xs).drop (c.data.length + 2) = xs := by
    rw [← List.drop_drop, List.append_assoc, List.drop_left]
    rfl
  rw [hxs, decodeChunked]
  split
  · next h' => rw [hline] at h'; cases h'
  · next h' =>
    rw [hline] at h'
    cases h'
    rw [hsize]
    split
    · next h0 => cases h0
    · next h0 => exact absurd (Option.some.inj h0) hne
    · next h0 =>
      cases h0
      rw [if_pos, hdrop, h, Option.map_some, List.append_assoc, List.take_left]
      rw [List.append_assoc, List.drop_left]
      rfl

/-- What is written as a chunked body is read as its data, whatever follows. -/
theorem decodeChunked_encode (cs : List Chunk) (last : LastChunk) (rest : List UInt8) :
    decodeChunked (encodeChunked cs last ++ rest) = some (cs.flatMap Chunk.data, rest) := by
  induction cs with
  | nil => simpa [encodeChunked] using decodeChunked_last last rest
  | cons c cs ih => simpa [encodeChunked] using decodeChunked_cons c ih

/-! ### Responses on a connection -/

def statusCode (start : List UInt8) : List UInt8 := ((start.dropWhile (· != SP)).drop 1).take 3

/-- The statuses 1xx, 204 and 304. -/
def noBodyStatus (start : List UInt8) : Bool :=
  (statusCode start).head? == some 49 || statusCode start == ascii "204" ||
    statusCode start == ascii "304"

structure Message where
  start : List UInt8
  fields : List (List UInt8 × List UInt8)
  body : List UInt8
  deriving DecidableEq, Repr

/-- One response and what follows it; `head` is whether it answers a `HEAD` request. -/
def readResponse (head : Bool) (xs : List UInt8) : Option (Message × List UInt8) :=
  match readHead xs with
  | none => none
  | some (start, fs, rest) =>
    if head || noBodyStatus start then some (⟨start, fs, []⟩, rest)
    else
      match framing fs with
      | some .chunked => (decodeChunked rest).map fun p => (⟨start, fs, p.1⟩, p.2)
      | some (.length n) =>
        if n ≤ rest.length then some (⟨start, fs, rest.take n⟩, rest.drop n) else none
      | some _ => some (⟨start, fs, rest⟩, [])
      | none => none

/-- The responses to a sequence of requests, with nothing after the last one. -/
def readResponses : List Bool → List UInt8 → Option (List Message)
  | [], xs => if xs = [] then some [] else none
  | head :: heads, xs =>
    match readResponse head xs with
    | none => none
    | some (r, rest) => (readResponses heads rest).map (r :: ·)

theorem readResponse_noBody {head : Bool} {xs start rest : List UInt8}
    {fs : List (List UInt8 × List UInt8)} (hr : readHead xs = some (start, fs, rest))
    (h : (head || noBodyStatus start) = true) :
    readResponse head xs = some (⟨start, fs, []⟩, rest) := by
  simp [readResponse, hr, h]

theorem readResponse_chunked {head : Bool} {xs start rest body rest' : List UInt8}
    {fs : List (List UInt8 × List UInt8)} (hr : readHead xs = some (start, fs, rest))
    (h : (head || noBodyStatus start) = false) (hf : framing fs = some .chunked)
    (hd : decodeChunked rest = some (body, rest')) :
    readResponse head xs = some (⟨start, fs, body⟩, rest') := by
  simp [readResponse, hr, h, hf, hd]

theorem readResponses_cons {head : Bool} {heads : List Bool} {xs rest : List UInt8} {r r' : Message}
    {rs : List Message} (hr : readResponse head xs = some (r, rest)) :
    readResponses (head :: heads) xs = some (r' :: rs) ↔ r = r' ∧
      readResponses heads rest = some rs := by
  simp only [readResponses, hr]
  constructor
  · intro h
    obtain ⟨rs', hrs, heq⟩ := Option.map_eq_some_iff.1 h
    obtain ⟨rfl, rfl⟩ := List.cons.inj heq
    exact ⟨rfl, hrs⟩
  · intro h
    rw [h.2, h.1]
    rfl

/-- The first byte of the start line is the first byte that is read. -/
theorem readHead_start {xs start rest : List UInt8} {b : UInt8}
    {fs : List (List UInt8 × List UInt8)} (hb : isText b)
    (h : readHead (b :: xs) = some (start, fs, rest)) : start.head? = some b := by
  have hline : ∀ line rest', readLine (b :: xs) = some (line, rest') → line.head? = some b := by
    intro line rest' hl
    unfold readLine at hl
    split at hl
    · split at hl
      · cases hl
        simp [hb]
      · cases hl
    · cases hl
  unfold readHead at h
  split at h
  · cases h
  · next line rest' hl =>
    split at h
    · cases h
    · cases h
      exact hline _ rest' hl

theorem readResponse_start {head : Bool} {xs rest : List UInt8} {b : UInt8} {r : Message}
    (hb : isText b) (h : readResponse head (b :: xs) = some (r, rest)) :
    r.start.head? = some b := by
  unfold readResponse at h
  split at h
  · cases h
  · next start fs rest' hh =>
    have hs := readHead_start hb hh
    split at h
    · cases h
      exact hs
    · split at h
      · obtain ⟨p, -, hp⟩ := Option.map_eq_some_iff.1 h
        cases hp
        exact hs
      · split at h
        · cases h
          exact hs
        · cases h
      · cases h
        exact hs
      · cases h

theorem readResponses_start {heads : List Bool} {xs : List UInt8} {b : UInt8} {r : Message}
    {rs : List Message} (hb : isText b) (h : readResponses heads (b :: xs) = some (r :: rs)) :
    r.start.head? = some b := by
  cases heads with
  | nil => simp [readResponses] at h
  | cons head heads =>
    rcases hr : readResponse head (b :: xs) with _ | ⟨r', rest⟩
    · simp [readResponses, hr] at h
    · obtain ⟨rfl, -⟩ := (readResponses_cons hr).1 h
      exact readResponse_start hb hr

end Http11
