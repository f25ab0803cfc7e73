import Balancer.Verify.Relay
import Balancer.Util.Stream

/-!
# Two readers of size lines

`TChunkedTransfer` reads a size line by characters and takes all of them for digits; `TChunkedInput`
reads it as a string, in which it skips blanks and stops at an extension. Neither of them checks the
range, and `TChunkedInput` does not ask for a digit. `sizeLine_agree_iff` says on which lines the
two read the size that the line declares, or reject it when it declares none.
-/

namespace Balancer

open BlockIO Http11 TChunkedInput TChunkedTransfer

/-- A size line: hexadecimal digits, blanks, and an extension. -/
structure SizeLine where
  digits : List UInt8
  blanks : List UInt8
  ext : List UInt8
  digits_hex : ∀ b ∈ digits, isHexDigit b
  blanks_blank : ∀ b ∈ blanks, isBlank b
  ext_semicolon : ∀ b ∈ ext.head?, b = SEMICOLON
  ext_text : ∀ b ∈ ext, isText b

namespace SizeLine

/-- What stands in front of the end of the line. -/
def text (l : SizeLine) : List UInt8 := l.digits ++ l.blanks ++ l.ext

def bytes (l : SizeLine) : List UInt8 := l.text ++ crlf

/-- The size that the line declares: it has a digit, and the size is in range. -/
def size (l : SizeLine) : Option Nat := (readHex l.digits).filter (· < 2 ^ 64)

theorem text_isText (l : SizeLine) : ∀ b ∈ l.text, isText b := by
  refine List.forall_mem_append.2 ⟨List.forall_mem_append.2 ⟨fun b hb => ?_, fun b hb => ?_⟩,
    l.ext_text⟩
  · exact isHexDigit_isText (l.digits_hex b hb)
  · rcases (by simpa [isBlank] using l.blanks_blank b hb : b = Http11.SP ∨ b = Http11.HT)
      with rfl | rfl <;> rfl

end SizeLine

/-! ### The string -/

namespace TInputStream

theorem readTo_append {xs : List UInt8} {ch : UInt8} (h : ch ∉ xs) (rest : List UInt8) :
    readTo ch (xs ++ ch :: rest) = (xs, rest) := by
  induction xs with
  | nil => simp [readTo]
  | cons b xs ih =>
    rw [List.mem_cons, not_or] at h
    rw [List.cons_append, readTo, if_neg fun heq => h.1 heq.symm, ih h.2]

/-- A line without line ends in it. -/
theorem readLine_text {xs : List UInt8} (h : ∀ b ∈ xs, isText b) (rest : List UInt8) :
    readLine (xs ++ crlf ++ rest) = .ok (xs, rest) := by
  have hlf : (10 : UInt8) ∉ xs ++ [13] := by
    intro hmem
    rcases List.mem_append.1 hmem with hmem | hmem
    · exact absurd (h 10 hmem) (by decide)
    · exact absurd (List.mem_singleton.1 hmem) (by decide)
  have hx : xs ++ crlf ++ rest = (xs ++ [13]) ++ 10 :: rest := by simp [crlf, Http11.CR, Http11.LF]
  rw [readLine, if_neg (by simp [crlf]), hx, readTo_append hlf]
  simp

end TInputStream

namespace TChunkedInput

theorem parseHexLoop_digit {b : UInt8} {d : Nat} (h : hexDigit b = some d) (s : List UInt8)
    (ret : Nat) (cs : List UInt8) :
    parseHexLoop s ret (b :: cs) = parseHexLoop s ((ret * 16 + d) % 2 ^ 64) cs := by
  simp only [hexDigit, isDigit, Bool.and_eq_true, decide_eq_true_eq] at h
  rw [parseHexLoop]
  split at h
  · next hd =>
    cases h
    rw [if_pos hd]
  · next hd =>
    rw [if_neg hd]
    split at h
    · next hu =>
      cases h
      have hl : ¬(97 ≤ b ∧ b ≤ 102) := by
        simp only [UInt8.le_iff_toNat_le] at hu ⊢
        simp at hu ⊢
        omega
      rw [if_neg hl, if_pos hu, show b.toNat - 55 = 10 + b.toNat - 65 by omega]
    · split at h
      · next hl =>
        cases h
        rw [if_pos hl, show b.toNat - 87 = 10 + b.toNat - 97 by omega]
      · cases h

theorem parseHexLoop_other {b : UInt8} (h : hexDigit b = none) (s : List UInt8) (ret : Nat)
    (cs : List UInt8) :
    parseHexLoop s ret (b :: cs) =
      if b = SEMICOLON then .ok ret else if isSpace b then parseHexLoop s ret cs
      else .error ("can not parse chunk length(" ++
        String.ofList (s.map fun b => Char.ofNat b.toNat) ++ ")") := by
  simp only [hexDigit, isDigit, Bool.and_eq_true, decide_eq_true_eq] at h
  rw [parseHexLoop]
  split at h
  · cases h
  · next hd =>
    split at h
    · cases h
    · next hu =>
      split at h
      · cases h
      · next hl =>
        rw [if_neg hd, if_neg hl, if_neg hu]
        rfl

/-- A character in front of an extension is rejected if it is neither a digit nor a space. -/
theorem parseHexLoop_error_iff (s : List UInt8) (ret : Nat) (cs : List UInt8) :
    (∃ e, parseHexLoop s ret cs = .error e) ↔
      ∃ b ∈ cs.takeWhile (· != SEMICOLON), ¬isHexDigit b ∧ ¬isSpace b := by
  induction cs generalizing ret with
  | nil => simp [parseHexLoop]
  | cons b cs ih =>
    cases hb : hexDigit b with
    | some d =>
      have hne : b ≠ SEMICOLON := by
        rintro rfl
        cases hb
      simp [parseHexLoop_digit hb, ih, hne, isHexDigit, hb]
    | none =>
      rw [parseHexLoop_other hb]
      by_cases hne : b = SEMICOLON
      · simp [hne]
      · by_cases hs : isSpace b = true
        · simp [hne, hs, ih]
        · simp [hne, hs, isHexDigit, hb]

theorem parseHexLoop_numeral {xs : List UInt8} {acc n : Nat}
    (h : Http11.numeral hexDigit 16 acc xs = some n) (s cs : List UInt8) :
    parseHexLoop s (acc % 2 ^ 64) (xs ++ cs) = parseHexLoop s (n % 2 ^ 64) cs := by
  induction xs generalizing acc with
  | nil =>
    cases h
    rfl
  | cons b xs ih =>
    unfold Http11.numeral at h
    split at h
    · cases h
    · next d hd =>
      have hmod : (acc % 2 ^ 64 * 16 + d) % 2 ^ 64 = (acc * 16 + d) % 2 ^ 64 := by omega
      rw [List.cons_append, parseHexLoop_digit hd, hmod, ih h]

theorem parseHexLoop_blanks {bs : List UInt8} (h : ∀ b ∈ bs, isBlank b) (s : List UInt8) (ret : Nat)
    (cs : List UInt8) : parseHexLoop s ret (bs ++ cs) = parseHexLoop s ret cs := by
  induction bs with
  | nil => rfl
  | cons b bs ih =>
    rw [List.cons_append, ← ih (List.forall_mem_cons.1 h).2]
    rcases (by simpa [isBlank] using h b (List.mem_cons_self ..) : b = Http11.SP ∨
      b = Http11.HT) with
      rfl | rfl <;> rfl

theorem parseHexLoop_ext {ext : List UInt8} (h : ∀ b ∈ ext.head?, b = SEMICOLON) (s : List UInt8)
    (ret : Nat) : parseHexLoop s ret ext = .ok ret := by
  cases ext with
  | nil => rfl
  | cons b ext =>
    cases h b rfl
    rfl

/-- A line that is not empty is read modulo the range of `size_t`, also when it has no digit. -/
theorem parseHex_text {l : SizeLine} {n : Nat} (h : Http11.numeral hexDigit 16 0 l.digits = some n)
    (hne : l.text ≠ []) : parseHex l.text = .ok (n % 2 ^ 64) := by
  have hloop := parseHexLoop_numeral h l.text (l.blanks ++ l.ext)
  rw [parseHexLoop_blanks l.blanks_blank, parseHexLoop_ext l.ext_semicolon, ← List.append_assoc]
    at hloop
  rw [parseHex, if_neg hne]
  exact hloop

theorem nextChunkLength_line {l : SizeLine} {n : Nat}
    (h : Http11.numeral hexDigit 16 0 l.digits = some n) (hne : l.text ≠ []) (rest : List UInt8) :
    nextChunkLength (l.bytes ++ rest) = .ok (n % 2 ^ 64, rest) := by
  rw [nextChunkLength, SizeLine.bytes, TInputStream.readLine_text l.text_isText]
  simp only [bind, Except.bind, if_neg hne, parseHex_text h hne]
  rfl

/-- The characters up to the end of the line, of which the string keeps all but a last CR. -/
theorem readTo_eq (ch : UInt8) (xs : List UInt8) :
    (TInputStream.readTo ch xs).1 = xs.takeWhile (· != ch) := by
  induction xs with
  | nil => rfl
  | cons b xs ih =>
    rw [TInputStream.readTo]
    split
    · next h => simp [h]
    · next h => simp [h, ih]

/-- A line that has no size for `TChunkedInput`: it is empty, or a character in front of an
extension is neither a digit nor a space. -/
def RejectedLine (line : List UInt8) : Prop :=
  line = [] ∨ line = [Http11.CR] ∨
    ∃ b ∈ line.takeWhile (· != SEMICOLON), ¬isHexDigit b ∧ ¬isSpace b

theorem parseHex_error_iff (s : List UInt8) : (∃ e, parseHex s = .error e) ↔
    s = [] ∨ ∃ b ∈ s.takeWhile (· != SEMICOLON), ¬isHexDigit b ∧ ¬isSpace b := by
  rw [parseHex]
  split
  · next h => exact iff_of_true ⟨_, rfl⟩ (.inl h)
  · next h => rw [parseHexLoop_error_iff, or_iff_right h]

/-- A CR at the end of a line is a space. -/
theorem rejectedLine_iff (line : List UInt8) :
    (∃ e, parseHex (if line.getLast? = some Http11.CR then line.dropLast else line) = .error e) ↔
      RejectedLine line := by
  rw [parseHex_error_iff, RejectedLine]
  rcases List.eq_nil_or_concat line with rfl | ⟨init, c, rfl⟩
  · simp
  · by_cases hc : c = Http11.CR
    · have hspace : isSpace Http11.CR = true := by decide
      have hcr : [Http11.CR].takeWhile (· != SEMICOLON) = [Http11.CR] := by decide
      subst hc
      rw [if_pos (by simp), List.concat_eq_append, List.dropLast_concat, List.takeWhile_append, hcr]
      split
      · next h =>
        rw [(List.takeWhile_sublist _).eq_of_length h]
        simp [or_and_right, exists_or, hspace]
      · simp
    · have hne : init ++ [c] ≠ [Http11.CR] := fun h => hc (by simpa using congrArg List.getLast? h)
      simp [hc, hne]

/-- Behind an empty line. -/
theorem nextChunkLength_error_iff (rest : List UInt8) :
    (∃ e, nextChunkLength (crlf ++ rest) = .error e) ↔
      RejectedLine (rest.takeWhile (· != Http11.LF)) := by
  have hempty : TInputStream.readLine (crlf ++ rest) = .ok ([], rest) :=
    TInputStream.readLine_text (List.forall_mem_nil _) rest
  have hbind : ∀ (r : Except String Nat) (ys : List UInt8),
      (∃ e, r.bind (fun n => .ok (n, ys)) = .error e) ↔ ∃ e, r = .error e := by
    intro r ys
    cases r <;> simp [Except.bind]
  rw [nextChunkLength, hempty, ← rejectedLine_iff, ← readTo_eq]
  by_cases hrest : rest = []
  · subst hrest
    exact iff_of_true ⟨_, rfl⟩ ⟨_, rfl⟩
  · rw [← hbind _ (TInputStream.readTo Http11.LF rest).2]
    simp only [bind, Except.bind, if_true, TInputStream.readLine, if_neg hrest]
    exact Iff.rfl

end TChunkedInput

/-! ### The characters -/

theorem numeral_exists {digit : UInt8 → Option Nat} {xs : List UInt8}
    (h : ∀ b ∈ xs, (digit b).isSome) (base acc : Nat) :
    ∃ n, Http11.numeral digit base acc xs = some n := by
  induction xs generalizing acc with
  | nil => exact ⟨acc, rfl⟩
  | cons b xs ih =>
    obtain ⟨d, hd⟩ := Option.isSome_iff_exists.1 (h b (List.mem_cons_self ..))
    simp only [Http11.numeral, hd]
    exact ih (List.forall_mem_cons.1 h).2 _

/-- The proxy takes everything behind the digits for more of them. -/
theorem nextSize_sizeLine {l : SizeLine} {n : Nat} (h : readHex l.digits = some n)
    (rest : List UInt8) :
    nextSize (l.bytes ++ rest) =
      some (sizeFold 16 char2Digit (n % 2 ^ 64) (l.blanks ++ l.ext), rest) := by
  obtain ⟨hne, hhex⟩ := readHex_isHexDigit h
  rw [readHex, if_neg hne] at h
  have hfold : sizeFold 16 char2Digit 0 l.text =
      sizeFold 16 char2Digit (n % 2 ^ 64) (l.blanks ++ l.ext) := by
    rw [SizeLine.text, List.append_assoc, sizeFold_append]
    congr 1
    exact sizeFold_numeral (fun _ _ hd => (char2Digit_hexDigit hd).1) h
  -- the line does not start with what is skipped in front of it
  obtain ⟨b, bs, hb⟩ := List.exists_cons_of_ne_nil hne
  have heol : ¬isEol b = true := by
    have htext := isHexDigit_isText (hhex b (by simp [hb]))
    simpa [isText, isEol, Http11.CR, Http11.LF] using htext
  have hdrop : (l.bytes ++ rest).dropWhile isEol = l.bytes ++ rest := by
    simp [SizeLine.bytes, SizeLine.text, hb, heol]
  rw [nextSize, hdrop, SizeLine.bytes, sizeLine_text l.text_isText, hfold]

namespace SizeLine

variable {σ : Type} [ISizedInput σ]

/-- The two readers at the line: both read the size that it declares and are at the byte behind it,
or both throw when it declares none. -/
def Agree (l : SizeLine) (rest : List UInt8) (f : Option TException) (it : TStreamIterator σ) :
    Prop :=
  match l.size with
  | some n => nextChunkLength (l.bytes ++ rest) = .ok (n, rest) ∧
      ∃ it', parseNextChunkLength it = (.ok n, it') ∧ it'.Holds rest f
  | none => (∃ e, nextChunkLength (l.bytes ++ rest) = .error e) ∧
      ∃ e it', parseNextChunkLength it = (.error e, it')

/-- The line declares a size and what is behind the digits does not change it when it is taken for
digits; nothing behind them does not. Or the line is empty, and both readers fail on what comes
after it: after further line ends no line is complete, and the next line has no size. -/
def Plain (l : SizeLine) (rest : List UInt8) : Prop :=
  match l.size with
  | some n => sizeFold 16 char2Digit n (l.blanks ++ l.ext) = n
  | none => l.text = [] ∧ Http11.LF ∉ rest.dropWhile isEol ∧
      TChunkedInput.RejectedLine (rest.takeWhile (· != Http11.LF))

end SizeLine

/-- Every size line, everything that may come after it, and every cut and ending of the stream: the
two readers agree on the line if and only if it is plain. -/
theorem sizeLine_agree_iff {σ : Type} [ISizedInput σ] (l : SizeLine) (rest : List UInt8)
    (f : Option TException) (it : TStreamIterator σ) (H : it.Holds (l.bytes ++ rest) f) :
    l.Agree rest f it ↔ l.Plain rest := by
  have hnext := parseNextChunkLength_holds H
  obtain ⟨n, hn⟩ := numeral_exists l.digits_hex 16 0
  unfold SizeLine.Agree SizeLine.Plain
  cases hsize : l.size with
  | some m =>
    obtain ⟨hread, hlt⟩ := Option.filter_eq_some_iff.1 hsize
    obtain ⟨hne, -⟩ := readHex_isHexDigit hread
    have hnum := hread
    rw [readHex, if_neg hne] at hnum
    have hmod : m % 2 ^ 64 = m := Nat.mod_eq_of_lt (of_decide_eq_true hlt)
    have hutil := nextChunkLength_line hnum (by simp [SizeLine.text, hne]) rest
    rw [nextSize_sizeLine hread, hmod] at hnext
    rw [hmod] at hutil
    obtain ⟨it', hparse, H'⟩ := hnext
    constructor
    · rintro ⟨-, it₁, hit, -⟩
      rw [hparse] at hit
      exact Except.ok.inj (congrArg Prod.fst hit)
    · intro hfold
      rw [hfold] at hparse
      exact ⟨hutil, it', hparse, H'⟩
  | none =>
    by_cases ht : l.text = []
    · rw [SizeLine.bytes, ht, List.nil_append, nextSize_crlf] at hnext
      rw [SizeLine.bytes, ht, List.nil_append]
      rw [← nextChunkLength_error_iff]
      have hnone : nextSize rest = none ↔ Http11.LF ∉ rest.dropWhile isEol := nextSize_eq_none_iff
      cases hrest : nextSize rest with
      | none =>
        rw [hrest] at hnext
        exact ⟨fun h => ⟨rfl, hnone.1 hrest, h.1⟩, fun h => ⟨h.2.2, hnext⟩⟩
      | some p =>
        rw [hrest] at hnext
        obtain ⟨it', hparse, -⟩ := hnext
        refine iff_of_false ?_ fun h => by cases hrest.symm.trans (hnone.2 h.2.1)
        rintro ⟨-, e, it₁, hit⟩
        rw [hparse] at hit
        cases hit
    · -- the string is accepted
      rw [nextChunkLength_line hn ht]
      exact iff_of_false (fun h => by obtain ⟨⟨e, he⟩, -⟩ := h; cases he) fun h => ht h.1

/-- A stream of one list. -/
def streamOf (l : TChunkList) : TStreamIterator TScript := ⟨⟨[l], none⟩, []⟩

theorem streamOf_holds {l : TChunkList} (h : Proper l) : (streamOf l).Holds l.flatten none := by
  have hy : Yields Proper (Script.mk [l] none : TScript) [l].flatten.flatten none :=
    Script.yields (by simpa using h) none
  rw [List.flatten_singleton] at hy
  exact .of_yields hy

theorem SizeLine.noExt_semicolon : ∀ b ∈ ([] : List UInt8).head?, b = SEMICOLON := by simp

theorem SizeLine.noExt_text : ∀ b ∈ ([] : List UInt8), isText b := by simp

/-- Digits of both cases and nothing behind them. -/
def digitsLine : SizeLine where
  digits := ascii "1aF"
  blanks := []
  ext := []
  digits_hex := by decide +kernel
  blanks_blank := by simp
  ext_semicolon := SizeLine.noExt_semicolon
  ext_text := SizeLine.noExt_text

/-- The line is cut inside the digits. -/
theorem sizeLine_agree_digits :
    digitsLine.Agree (ascii "x") none (streamOf [ascii "1a", ascii "F\r\nx"]) :=
  (sizeLine_agree_iff digitsLine (ascii "x") none (streamOf [ascii "1a", ascii "F\r\nx"])
    (streamOf_holds (by decide +kernel))).2 (show sizeFold 16 char2Digit 431 [] = 431 from rfl)

/-- A blank behind the digit. -/
def blankLine : SizeLine where
  digits := ascii "5"
  blanks := ascii " "
  ext := []
  digits_hex := by decide +kernel
  blanks_blank := by decide +kernel
  ext_semicolon := SizeLine.noExt_semicolon
  ext_text := SizeLine.noExt_text

/-- `TChunkedTransfer` reads the size 5 as 64. -/
theorem sizeLine_agree_blank : blankLine.size = some 5 ∧
    (streamOf [ascii "5 \r\nhello"]).Holds (blankLine.bytes ++ ascii "hello") none ∧
    ¬blankLine.Agree (ascii "hello") none (streamOf [ascii "5 \r\nhello"]) := by
  refine ⟨by decide +kernel, streamOf_holds (by decide +kernel), ?_⟩
  rintro ⟨-, it', h, -⟩
  have h64 : (parseNextChunkLength (streamOf [ascii "5 \r\nhello"])).1 = .ok 64 := by
    decide +kernel
  rw [h] at h64
  cases h64

end Balancer
