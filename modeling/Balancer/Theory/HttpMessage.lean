import Mathlib

/-!
# HTTP/1.1 message heads

The syntax of the head of a message (a start line, field lines, an empty line) as a peer writes it
(`Head.encode`) and as a strict peer reads it (`readHead`), and the rules by which the fields
determine the length of the body (`framing`). `readFields_encode` and `readHead_eq` are the round
trip.
-/

namespace Http11

def CR : UInt8 := 13
def LF : UInt8 := 10
def SP : UInt8 := 32
def HT : UInt8 := 9
def COLON : UInt8 := 58
def COMMA : UInt8 := 44
def crlf : List UInt8 := [CR, LF]

def ascii (s : String) : List UInt8 := s.toList.map fun c => UInt8.ofNat c.toNat

/-- What may stand inside a line. -/
def isText (b : UInt8) : Bool := b != CR && b != LF

def isBlank (b : UInt8) : Bool := b == SP || b == HT

def isDigit (b : UInt8) : Bool := 48 ≤ b && b ≤ 57

/-- The characters of a token: visible ASCII without the delimiters. -/
def isTchar (b : UInt8) : Bool :=
  33 ≤ b && b ≤ 126 && !([34, 40, 41, 44, 47, 58, 59, 60, 61, 62, 63, 64, 91, 92, 93, 123,
    125].contains b)

def lower (b : UInt8) : UInt8 := if 65 ≤ b && b ≤ 90 then b + 32 else b

/-- Field names and the names of codings are compared without regard to case. -/
def SameName (a b : List UInt8) : Prop := a.map lower = b.map lower

instance (a b : List UInt8) : Decidable (SameName a b) := by
  unfold SameName; infer_instance

/-- A value without the blanks around it. -/
def trim (xs : List UInt8) : List UInt8 := (xs.dropWhile isBlank).rdropWhile isBlank

theorem trim_cons_blank {b : UInt8} (hb : isBlank b = true) (xs : List UInt8) :
    trim (b :: xs) = trim xs := by
  simp [trim, hb]

/-- A value starts with the first byte that is no blank. -/
theorem trim_head? (xs : List UInt8) : (trim xs).head? = (xs.dropWhile isBlank).head? := by
  unfold trim
  rcases hd : xs.dropWhile isBlank with _ | ⟨b, ys⟩
  · rfl
  · have hb : isBlank b = false := by
      have := List.head?_dropWhile_not isBlank xs
      rw [hd] at this
      exact this
    rcases hr : (b :: ys).rdropWhile isBlank with _ | ⟨c, cs⟩
    · have hall := List.rdropWhile_eq_nil_iff.1 hr b (List.mem_cons_self ..)
      rw [hb] at hall
      cases hall
    · have hpre := List.rdropWhile_prefix isBlank (b :: ys)
      rw [hr] at hpre
      rw [(List.cons_prefix_cons.1 hpre).1]
      rfl

/-! ### Heads -/

/-- A field line; `raw` is all that stands between the colon and the end of the line. -/
structure Field where
  name : List UInt8
  raw : List UInt8
  name_ne : name ≠ []
  name_tchar : ∀ b ∈ name, isTchar b
  raw_text : ∀ b ∈ raw, isText b

namespace Field

def value (f : Field) : List UInt8 := trim f.raw

def encode (f : Field) : List UInt8 := f.name ++ COLON :: f.raw ++ crlf

/-- A field with a fixed name and value. -/
def ofAscii (name raw : String) (hne : ascii name ≠ []) (hname : (ascii name).all isTchar)
    (hraw : (ascii raw).all isText) : Field where
  name := ascii name
  raw := ascii raw
  name_ne := hne
  name_tchar := List.all_eq_true.1 hname
  raw_text := List.all_eq_true.1 hraw

end Field

structure Head where
  start : List UInt8
  fields : List Field
  start_ne : start ≠ []
  start_text : ∀ b ∈ start, isText b

namespace Head

def encode (h : Head) : List UInt8 := h.start ++ crlf ++ h.fields.flatMap Field.encode ++ crlf

/-- A head with a fixed start line. -/
def ofAscii (start : String) (fields : List Field) (hne : ascii start ≠ [])
    (htext : (ascii start).all isText) : Head where
  start := ascii start
  fields
  start_ne := hne
  start_text := List.all_eq_true.1 htext

/-- The fields as names and values. -/
def view (h : Head) : List (List UInt8 × List UInt8) := h.fields.map fun f => (f.name, f.value)

end Head

/-! ### Reading a head -/

/-- A line that ends with CRLF, and what follows it. -/
def readLine (xs : List UInt8) : Option (List UInt8 × List UInt8) :=
  match xs.dropWhile isText with
  | c :: d :: rest => if c = CR ∧ d = LF then some (xs.takeWhile isText, rest) else none
  | _ => none

theorem readLine_append {line : List UInt8} (h : ∀ b ∈ line, isText b) (rest : List UInt8) :
    readLine (line ++ crlf ++ rest) = some (line, rest) := by
  have hcr : isText CR = false := rfl
  rw [readLine, List.append_assoc, List.dropWhile_append_of_pos h, List.takeWhile_append_of_pos h]
  simp [crlf, hcr]

theorem readLine_length {xs line rest : List UInt8} (h : readLine xs = some (line, rest)) :
    rest.length < xs.length := by
  unfold readLine at h
  split at h
  · next c d rest' hdrop =>
    split at h
    · cases h
      have := (List.dropWhile_sublist isText (l := xs)).length_le
      rw [hdrop] at this
      simp only [List.length_cons] at this
      omega
    · cases h
  · cases h

/-- The name and the value of a field line. -/
def readField (line : List UInt8) : Option (List UInt8 × List UInt8) :=
  match line.dropWhile (· != COLON) with
  | [] => none
  | _ :: raw => some (line.takeWhile (· != COLON), trim raw)

theorem readField_colon {name : List UInt8} (h : ∀ b ∈ name, b ≠ COLON) (raw : List UInt8) :
    readField (name ++ COLON :: raw) = some (name, trim raw) := by
  have h' : ∀ b ∈ name, (b != COLON) = true := fun b hb => bne_iff_ne.2 (h b hb)
  rw [readField, List.dropWhile_append_of_pos h', List.takeWhile_append_of_pos h']
  simp

/-- Field lines up to the empty line, and what follows it. -/
def readFields (xs : List UInt8) : Option (List (List UInt8 × List UInt8) × List UInt8) :=
  match _h : readLine xs with
  | none => none
  | some ([], rest) => some ([], rest)
  | some (line, rest) =>
    match readField line, readFields rest with
    | some f, some (fs, rest) => some (f :: fs, rest)
    | _, _ => none
termination_by xs.length
decreasing_by exact readLine_length _h

theorem readFields_nil (rest : List UInt8) : readFields (crlf ++ rest) = some ([], rest) := by
  have h : readLine ([] ++ crlf ++ rest) = some ([], rest) := readLine_append (by simp) rest
  rw [List.nil_append] at h
  rw [readFields]
  split
  · next h' => rw [h] at h'; cases h'
  · next h' => rw [h] at h'; cases h'; rfl
  · next hne h' => rw [h] at h'; cases h'; exact absurd rfl hne

theorem readFields_cons {line rest : List UInt8} {f : List UInt8 × List UInt8}
    {fs : List (List UInt8 × List UInt8)} {rest' : List UInt8} (hne : line ≠ [])
    (ht : ∀ b ∈ line, isText b) (hf : readField line = some f)
    (hfs : readFields rest = some (fs, rest')) :
    readFields (line ++ crlf ++ rest) = some (f :: fs, rest') := by
  have h := readLine_append ht rest
  rw [readFields]
  split
  · next h' => rw [h] at h'; cases h'
  · next h' => rw [h] at h'; cases h'; exact absurd rfl hne
  · next h' => rw [h] at h'; cases h'; rw [hf, hfs]

/-- The start line, the fields, and what follows the head. -/
def readHead (xs : List UInt8) :
    Option (List UInt8 × List (List UInt8 × List UInt8) × List UInt8) :=
  match readLine xs with
  | none => none
  | some (start, rest) =>
    match readFields rest with
    | none => none
    | some (fs, rest) => some (start, fs, rest)

theorem readHead_eq {start rest rest' : List UInt8} {fs : List (List UInt8 × List UInt8)}
    (ht : ∀ b ∈ start, isText b) (hfs : readFields rest = some (fs, rest')) :
    readHead (start ++ crlf ++ rest) = some (start, fs, rest') := by
  rw [readHead, readLine_append ht]
  simp [hfs]

theorem isTchar_isText {b : UInt8} (h : isTchar b) : isText b := by
  have hcr : b ≠ CR := by rintro rfl; exact absurd h (by decide)
  have hlf : b ≠ LF := by rintro rfl; exact absurd h (by decide)
  simp [isText, hcr, hlf]

theorem isTchar_ne_colon {b : UInt8} (h : isTchar b) : b ≠ COLON := by
  rintro rfl
  exact absurd h (by decide)

theorem readFields_encode (fs : List Field) (rest : List UInt8) :
    readFields (fs.flatMap Field.encode ++ crlf ++ rest) =
      some (fs.map fun f => (f.name, f.value), rest) := by
  induction fs with
  | nil => exact readFields_nil rest
  | cons f fs ih =>
    have hline : ∀ b ∈ f.name ++ COLON :: f.raw, isText b :=
      List.forall_mem_append.2 ⟨fun b hb => isTchar_isText (f.name_tchar b hb),
        List.forall_mem_cons.2 ⟨rfl, f.raw_text⟩⟩
    have hf := readField_colon (fun b hb => isTchar_ne_colon (f.name_tchar b hb)) f.raw
    have hne : f.name ++ COLON :: f.raw ≠ [] := by simp
    have := readFields_cons hne hline hf ih
    simpa [Field.encode, Field.value] using this

/-! ### Framing -/

/-- A number in base `base`. -/
def numeral (digit : UInt8 → Option Nat) (base : Nat) : Nat → List UInt8 → Option Nat
  | acc, [] => some acc
  | acc, b :: bs =>
    match digit b with
    | none => none
    | some d => numeral digit base (acc * base + d) bs

def decDigit (b : UInt8) : Option Nat := if isDigit b then some (b.toNat - 48) else none

/-- A decimal number of at least one digit. -/
def readDec (xs : List UInt8) : Option Nat := if xs = [] then none else numeral decDigit 10 0 xs

def contentLength : List UInt8 := ascii "Content-Length"
def transferEncoding : List UInt8 := ascii "Transfer-Encoding"
def chunkedName : List UInt8 := ascii "chunked"

/-- The values of the fields called `name`. -/
def valuesOf (name : List UInt8) (fs : List (List UInt8 × List UInt8)) : List (List UInt8) :=
  (fs.filter fun f => SameName f.1 name).map Prod.snd

theorem valuesOf_cons_pos {name : List UInt8} {f : List UInt8 × List UInt8} (h : SameName f.1 name)
    (fs : List (List UInt8 × List UInt8)) : valuesOf name (f :: fs) = f.2 :: valuesOf name fs := by
  simp [valuesOf, h]

theorem valuesOf_cons_neg {name : List UInt8} {f : List UInt8 × List UInt8} (h : ¬SameName f.1 name)
    (fs : List (List UInt8 × List UInt8)) : valuesOf name (f :: fs) = valuesOf name fs := by
  simp [valuesOf, h]

theorem valuesOf_eq_nil {name : List UInt8} {fs : List (List UInt8 × List UInt8)}
    (h : ∀ f ∈ fs, ¬SameName f.1 name) : valuesOf name fs = [] := by
  simpa [valuesOf] using h

theorem valuesOf_append (name : List UInt8) (fs gs : List (List UInt8 × List UInt8)) :
    valuesOf name (fs ++ gs) = valuesOf name fs ++ valuesOf name gs := by
  simp [valuesOf]

/-- The last element of a comma-separated list. -/
def lastElement (value : List UInt8) : List UInt8 :=
  trim (value.reverse.takeWhile (· != COMMA)).reverse

/-- How the fields delimit the body that follows them: by the chunked coding, by a length, by a
transfer coding that does not delimit it, or not at all. -/
inductive Framing where
  | chunked
  | length (n : Nat)
  | coded
  | unframed
  deriving DecidableEq, Repr

/-- A transfer coding overrides a length, and the last coding counts. Lengths that are no decimal
numbers or contradict each other are an error. -/
def framing (fs : List (List UInt8 × List UInt8)) : Option Framing :=
  match (valuesOf transferEncoding fs).getLast? with
  | some te => some (if SameName (lastElement te) chunkedName then .chunked else .coded)
  | none =>
    match valuesOf contentLength fs with
    | [] => some .unframed
    | v :: vs => if vs.all (readDec · == readDec v) then (readDec v).map .length else none

theorem framing_unframed {fs : List (List UInt8 × List UInt8)}
    (hte : ∀ f ∈ fs, ¬SameName f.1 transferEncoding) (hcl : ∀ f ∈ fs, ¬SameName f.1 contentLength) :
    framing fs = some .unframed := by
  simp [framing, valuesOf_eq_nil hte, valuesOf_eq_nil hcl]

/-- A transfer coding is what makes a message chunked or coded. -/
theorem framing_transferEncoding {fs : List (List UInt8 × List UInt8)} {fr : Framing}
    (h : framing fs = some fr) : valuesOf transferEncoding fs = [] ↔ fr ≠ .chunked ∧
    fr ≠ .coded := by
  unfold framing at h
  split at h
  · next te hte =>
    have hne : valuesOf transferEncoding fs ≠ [] := by
      intro h0
      rw [h0] at hte
      cases hte
    refine ⟨fun h0 => absurd h0 hne, fun ⟨h1, h2⟩ => ?_⟩
    split at h
    · exact absurd (Option.some.inj h).symm h1
    · exact absurd (Option.some.inj h).symm h2
  · next hte =>
    refine ⟨fun _ => ?_, fun _ => List.getLast?_eq_none_iff.1 hte⟩
    split at h
    · cases h
      simp
    · split at h
      · obtain ⟨n, -, rfl⟩ := Option.map_eq_some_iff.1 h
        simp
      · cases h

theorem framing_contentLength {fs : List (List UInt8 × List UInt8)}
    (h : framing fs = some .unframed) : valuesOf contentLength fs = [] := by
  unfold framing at h
  split at h
  · split at h <;> cases h
  · split at h
    · next hcl => exact hcl
    · split at h
      · obtain ⟨n, -, hn⟩ := Option.map_eq_some_iff.1 h
        cases hn
      · cases h

end Http11
