import Balancer.Verify.RequestParser
import Balancer.Kernel.Headers

/-!
# Parsing and building message heads

What the flat machine makes of a head that a peer wrote (`FlatState.run_encode`) and of one that
`BuildTo` wrote (`TRequest.run_buildTo`), how a peer reads what `BuildTo` wrote
(`readHead_builtHead`), and which of the fields `TResponseParser` takes out
(`responseProperties_flat`). The parser drops blanks and colons in front of a value and keeps the
blanks after it.
-/

namespace Balancer

open BlockIO ParseHttpRequest
open Http11 hiding COLON CR HT LF SP

/-! ### Runs inside a line -/

namespace FlatState

variable {s : FlatState}

theorem run_step {b : UInt8} {q : State} {acts : List Action}
    (h : transition s.cs b = some (q, acts)) (hend : .endOfHeaders ∉ acts) (rest : List UInt8) :
    s.run (b :: rest) = (s.step q acts b).run rest := by
  simp [run, h, hend]

/-- Bytes that keep the state belong to the open token. -/
theorem run_stay {xs : List UInt8} (h : ∀ b ∈ xs, transition s.cs b = some (s.cs, []))
    (rest : List UInt8) :
    s.run (xs ++ rest) = ({ s with req := s.req.pushOpt s.curTok xs } : FlatState).run rest := by
  induction xs generalizing s with
  | nil => simp
  | cons b xs ih =>
    have hb := h b (List.mem_cons_self ..)
    have hxs : ∀ c ∈ xs, transition (s.step s.cs [] b).cs c = some ((s.step s.cs [] b).cs, []) :=
      (List.forall_mem_cons.1 h).2
    rw [List.cons_append, run_step hb (by simp), ih hxs]
    simp [step, FlatRequest.pushOpt_pushOpt]

/-- Between two lines no token is open. -/
structure AtLine (s : FlatState) : Prop where
  cs : s.cs = .line
  curTok : s.curTok = none

end FlatState

theorem isHchar_isChar {b : UInt8} (h : isHchar b) : isChar b :=
  (Bool.and_eq_true_iff.1 h).1

theorem isHchar_isHdelim {b : UInt8} (h : isHchar b) : isHdelim b = false := by
  simpa using (Bool.and_eq_true_iff.1 h).2

/-- A header line as the parser takes it apart. -/
structure HeaderLine where
  key : List UInt8
  delim : List UInt8
  value : List UInt8
  key_ne : key ≠ []
  key_hchar : ∀ b ∈ key, isHchar b
  delim_ne : delim ≠ []
  delim_hdelim : ∀ b ∈ delim, isHdelim b
  value_char : ∀ b ∈ value, isChar b
  value_head : ∀ b ∈ value.head?, isHdelim b = false

namespace HeaderLine

def bytes (l : HeaderLine) : List UInt8 := l.key ++ l.delim ++ l.value ++ CRLF

end HeaderLine

namespace FlatState

variable {s : FlatState}

/-- The last header of the request, at the index that `curTok` and `curHdr` have for it. -/
theorem modify_last (hs : List (List UInt8 × List UInt8)) (h : List UInt8 × List UInt8)
    (f : List UInt8 × List UInt8 → List UInt8 × List UInt8) :
    (hs ++ [h]).modify hs.length f = hs ++ [f h] := by
  induction hs with
  | nil => rfl
  | cons a hs ih => simp [ih]

/-- The end of a line, where the machine waits for `\n` in the state `q`. -/
theorem run_lf {q : State} (hq : q = .requestCr ∨ q = .headerCr) (hcs : s.cs = q)
    (htok : s.curTok = none) (rest : List UInt8) :
    s.run (10 :: rest) = ({ s with cs := .line } : FlatState).run rest := by
  have ht : transition s.cs 10 = some (.line, []) := by
    rcases hq with rfl | rfl <;> rw [hcs] <;> rfl
  rw [run_step ht (by simp)]
  simp [step, htok]

/-- The key and the delimiter of a header line. -/
theorem run_key (H : s.AtLine) (l : HeaderLine) (rest : List UInt8) :
    s.run (l.key ++ l.delim ++ rest) =
      ({ cs := .delim, curTok := none, curHdr := some s.req.headers.length,
         req := { s.req with headers := s.req.headers ++ [(l.key, [])] } } :
        FlatState).run rest := by
  obtain ⟨key, delim, value, key_ne, key_hchar, delim_ne, delim_hdelim, _, _⟩ := l
  obtain ⟨k, key, rfl⟩ := List.exists_cons_of_ne_nil key_ne
  obtain ⟨d, delim, rfl⟩ := List.exists_cons_of_ne_nil delim_ne
  have hk := key_hchar k (List.mem_cons_self ..)
  have hd := delim_hdelim d (List.mem_cons_self ..)
  have hd' : isHchar d = false := by
    by_contra hne
    simp [isHchar_isHdelim (Bool.not_eq_false _ ▸ hne)] at hd
  have h1 : transition s.cs k = some (.key, [.nextToken, .startOfKey]) := by
    rw [H.cs]; simp [transition, hk]
  simp only [List.cons_append, List.append_assoc]
  rw [run_step h1 (by simp), run_stay (fun b hb => ?_)]
  · have h2 : transition .key d = some (.delim, [.endOfToken]) := by simp [transition, hd, hd']
    rw [run_step h2 (by simp), run_stay (fun b hb => ?_)]
    · simp [step, act, FlatRequest.push, modify_last]
    · have := delim_hdelim b (List.mem_cons_of_mem _ hb)
      simp [step, transition, this]
  · have := key_hchar b (List.mem_cons_of_mem _ hb)
    simp [step, transition, this]

/-- The value of a header line, up to the `\r` after it. -/
theorem run_value (r : List UInt8) (hs : List (List UInt8 × List UInt8)) (key : List UInt8)
    (l : HeaderLine) (rest : List UInt8) :
    ∃ hdr, ({ cs := .delim, curTok := none, curHdr := some hs.length,
              req := ⟨r, hs ++ [(key, [])]⟩ } : FlatState).run (l.value ++ 13 :: rest) =
      ({ cs := .headerCr, curTok := none, curHdr := hdr,
         req := ⟨r, hs ++ [(key, l.value)]⟩ } : FlatState).run rest := by
  obtain ⟨_, _, value, _, _, _, _, value_char, value_head⟩ := l
  cases value with
  | nil =>
    have ht : transition .delim 13 = some (.headerCr, [.nextToken]) := rfl
    refine ⟨some hs.length, ?_⟩
    rw [List.nil_append, run_step ht (by simp)]
    rfl
  | cons v value =>
    have hv := value_head v rfl
    have hv' := value_char v (List.mem_cons_self ..)
    have h1 : transition .delim v = some (.value, [.nextToken, .startOfValue]) := by
      simp [transition, isHchar, hv, hv']
    have h2 : transition .value 13 = some (.headerCr, [.endOfToken]) := rfl
    refine ⟨none, ?_⟩
    rw [List.cons_append, run_step h1 (by simp), run_stay (fun b hb => ?_), run_step h2 (by simp)]
    · simp [step, act, FlatRequest.push, modify_last]
    · have := value_char b (List.mem_cons_of_mem _ hb)
      simp [step, transition, this]

theorem run_headerLine (H : s.AtLine) (l : HeaderLine) (rest : List UInt8) :
    ∃ s' : FlatState, s.run (l.bytes ++ rest) = s'.run rest ∧ s'.AtLine ∧
      s'.req = { s.req with headers := s.req.headers ++ [(l.key, l.value)] } := by
  obtain ⟨hdr, hv⟩ := run_value s.req.request s.req.headers l.key l (10 :: rest)
  refine ⟨{
    cs := .line, curHdr := hdr, req := ⟨s.req.request, s.req.headers ++ [(l.key, l.value)]⟩ },
    ?_, ⟨rfl, rfl⟩, rfl⟩
  simp only [HeaderLine.bytes, CRLF, List.append_assoc, List.cons_append, List.nil_append]
  rw [← List.append_assoc, run_key H, hv, run_lf (.inr rfl) rfl rfl]

theorem run_headerLines (H : s.AtLine) (ls : List HeaderLine) (rest : List UInt8) :
    ∃ s' : FlatState, s.run (ls.flatMap HeaderLine.bytes ++ rest) = s'.run rest ∧ s'.AtLine ∧
      s'.req = { s.req with headers := s.req.headers ++ ls.map fun l => (l.key, l.value) } := by
  induction ls generalizing s with
  | nil => exact ⟨s, by simp, H, by simp⟩
  | cons l ls ih =>
    obtain ⟨s₁, h₁, H₁, hr₁⟩ := run_headerLine H l (ls.flatMap HeaderLine.bytes ++ rest)
    obtain ⟨s₂, h₂, H₂, hr₂⟩ := ih H₁
    refine ⟨s₂, ?_, H₂, ?_⟩
    · rw [List.flatMap_cons, List.append_assoc, h₁, h₂]
    · rw [hr₂, hr₁]
      simp

/-- The empty line ends the block. -/
theorem run_emptyLine (H : s.AtLine) (rest : List UInt8) :
    s.run (CRLF ++ rest) = .done s.req rest := by
  have h1 : transition s.cs 13 = some (.lastCr, [.nextToken]) := by rw [H.cs]; rfl
  have h2 : transition .lastCr 10 = some (.final, [.endOfHeaders]) := rfl
  change s.run (13 :: 10 :: rest) = _
  rw [run_step h1 (by simp)]
  simp [step, act, run, h2, H.curTok]

theorem run_requestLine {line : List UInt8} (hne : line ≠ []) (hc : ∀ b ∈ line, isChar b)
    (rest : List UInt8) :
    ∃ s' : FlatState, ({} : FlatState).run (line ++ CRLF ++ rest) = s'.run rest ∧ s'.AtLine ∧
      s'.req = ⟨line, []⟩ := by
  obtain ⟨b, line, rfl⟩ := List.exists_cons_of_ne_nil hne
  have hb := hc b (List.mem_cons_self ..)
  have h1 : transition .start b = some (.request, [.startOfRequest]) := by simp [transition, hb]
  have h2 : transition .request 13 = some (.requestCr, [.endOfToken]) := rfl
  refine ⟨{ cs := .line, curTok := none, curHdr := none, req := ⟨b :: line, []⟩ }, ?_, ⟨rfl, rfl⟩,
    rfl⟩
  simp only [CRLF, List.append_assoc, List.cons_append, List.nil_append]
  rw [run_step h1 (by simp), run_stay (fun c hc' => ?_), run_step h2 (by simp),
    run_lf (.inl rfl) rfl rfl]
  · simp [step, act, FlatRequest.push]
  · have := hc c (List.mem_cons_of_mem _ hc')
    simp [step, transition, this]

/-- A whole block. -/
theorem run_block {line : List UInt8} (hne : line ≠ []) (hc : ∀ b ∈ line, isChar b)
    (ls : List HeaderLine) (tail : List UInt8) :
    ({} : FlatState).run (line ++ CRLF ++ ls.flatMap HeaderLine.bytes ++ CRLF ++ tail) =
      .done ⟨line, ls.map fun l => (l.key, l.value)⟩ tail := by
  obtain ⟨s₁, h₁, H₁, hr₁⟩ := run_requestLine hne hc (ls.flatMap HeaderLine.bytes ++ (CRLF ++ tail))
  obtain ⟨s₂, h₂, H₂, hr₂⟩ := run_headerLines H₁ ls (CRLF ++ tail)
  simp only [List.append_assoc] at h₁ ⊢
  rw [h₁, h₂, run_emptyLine H₂, hr₂, hr₁]
  simp

end FlatState

/-! ### Heads written by a peer -/

theorem isTchar_isHchar {b : UInt8} (h : isTchar b) : isHchar b := by
  have hcr : b ≠ CR := by rintro rfl; exact absurd h (by decide)
  have hlf : b ≠ LF := by rintro rfl; exact absurd h (by decide)
  have hsp : b ≠ SP := by rintro rfl; exact absurd h (by decide)
  have hht : b ≠ HT := by rintro rfl; exact absurd h (by decide)
  have hcolon : b ≠ COLON := by rintro rfl; exact absurd h (by decide)
  simp [isHchar, isChar, isHdelim, hcr, hlf, hsp, hht, hcolon]

theorem dropWhile_head {p : UInt8 → Bool} {xs : List UInt8} :
    ∀ b ∈ (xs.dropWhile p).head?, p b = false := by
  intro b hb
  have h := List.head?_dropWhile_not p xs
  rw [Option.mem_def.1 hb] at h
  exact h

/-- A field line as the parser takes it apart: blanks and colons after the first colon belong to the
delimiter. -/
def headerLine (f : Field) : HeaderLine where
  key := f.name
  delim := COLON :: f.raw.takeWhile isHdelim
  value := f.raw.dropWhile isHdelim
  key_ne := f.name_ne
  key_hchar b hb := isTchar_isHchar (f.name_tchar b hb)
  delim_ne := List.cons_ne_nil _ _
  delim_hdelim := List.forall_mem_cons.2 ⟨rfl, List.all_eq_true.1 List.all_takeWhile⟩
  value_char b hb := f.raw_text b ((List.dropWhile_sublist _).subset hb)
  value_head := dropWhile_head

theorem headerLine_bytes (f : Field) : (headerLine f).bytes = f.encode := by
  have h : f.raw = f.raw.takeWhile isHdelim ++ f.raw.dropWhile isHdelim :=
    (List.takeWhile_append_dropWhile).symm
  rw [Field.encode, h]
  simp only [HeaderLine.bytes, headerLine, List.append_assoc, List.cons_append]
  rfl

/-- The request or response that the parser makes of a head. -/
def flatHead (h : Head) : FlatRequest where
  request := h.start
  headers := h.fields.map fun f => (f.name, f.raw.dropWhile isHdelim)

theorem FlatState.run_encode (h : Head) (tail : List UInt8) :
    ({} : FlatState).run (h.encode ++ tail) = .done (flatHead h) tail := by
  have hb : h.fields.flatMap Field.encode = (h.fields.map headerLine).flatMap HeaderLine.bytes := by
    rw [List.flatMap_map]
    exact List.flatMap_congr fun f _ => (headerLine_bytes f).symm
  have := FlatState.run_block h.start_ne h.start_text (h.fields.map headerLine) tail
  rw [← hb, List.map_map] at this
  exact this

/-! ### Heads written by `BuildTo` -/

/-- What the parser makes of a block. -/
structure FlatRequest.WF (r : FlatRequest) : Prop where
  request_ne : r.request ≠ []
  request_char : ∀ b ∈ r.request, isChar b
  key_ne : ∀ h ∈ r.headers, h.1 ≠ []
  key_hchar : ∀ h ∈ r.headers, ∀ b ∈ h.1, isHchar b
  value_char : ∀ h ∈ r.headers, ∀ b ∈ h.2, isChar b
  value_head : ∀ h ∈ r.headers, ∀ b ∈ h.2.head?, isHdelim b = false

theorem flatHead_wf (h : Head) : (flatHead h).WF := by
  have hline : ∀ x ∈ (flatHead h).headers, ∃ l : HeaderLine, x = (l.key, l.value) := by
    intro x hx
    obtain ⟨f, -, rfl⟩ := List.mem_map.1 hx
    exact ⟨headerLine f, rfl⟩
  refine ⟨h.start_ne, h.start_text, ?_, ?_, ?_, ?_⟩ <;> intro x hx <;> obtain ⟨l, rfl⟩ := hline x hx
  · exact l.key_ne
  · exact l.key_hchar
  · exact l.value_char
  · exact l.value_head

theorem FlatRequest.WF.filter {r : FlatRequest} (H : r.WF) (p : List UInt8 × List UInt8 → Bool) :
    FlatRequest.WF { r with headers := r.headers.filter p } :=
  ⟨H.request_ne, H.request_char, fun h hh => H.key_ne h (List.mem_of_mem_filter hh),
    fun h hh => H.key_hchar h (List.mem_of_mem_filter hh),
    fun h hh => H.value_char h (List.mem_of_mem_filter hh),
    fun h hh => H.value_head h (List.mem_of_mem_filter hh)⟩

/-- A header as `BuildTo` writes it. -/
def builtHeader (h : List UInt8 × List UInt8) : List UInt8 := h.1 ++ HDRD ++ h.2 ++ CRLF

/-- The head that is written for a request or a response, with the custom headers. -/
def builtHead (req : FlatRequest) (custom : TChunkList) : List UInt8 :=
  req.request ++ CRLF ++ req.headers.flatMap builtHeader ++ custom.flatten ++ CRLF

theorem TRequest.buildTo_flatten (r : TRequest) (custom : TChunkList) :
    (r.buildTo custom).flatten = builtHead r.flat custom := by
  have hh : (r.headers.flatMap fun h => h.key ++ [HDRD] ++ h.value ++ [CRLF]).flatten =
      r.flat.headers.flatMap builtHeader := by
    simp only [TRequest.flat, List.flatMap_map]
    induction r.headers with
    | nil => rfl
    | cons h hs ih =>
      rw [List.flatMap_cons, List.flatten_append, ih]
      simp [builtHeader]
  simp only [TRequest.buildTo, List.flatten_append, hh, List.flatten_cons, List.flatten_nil,
    List.append_nil]
  rfl

/-- A header that `BuildTo` wrote is parsed as what it was written from. -/
theorem TRequest.run_buildTo {r : TRequest} (H : r.flat.WF) (tail : List UInt8) :
    ({} : FlatState).run ((r.buildTo []).flatten ++ tail) = .done r.flat tail := by
  have hlines : ∀ hs : List (List UInt8 × List UInt8), (∀ h ∈ hs, h ∈ r.flat.headers) →
      ∃ ls : List HeaderLine, ls.flatMap HeaderLine.bytes = hs.flatMap builtHeader ∧
        ls.map (fun l => (l.key, l.value)) = hs := by
    intro hs
    induction hs with
    | nil => exact fun _ => ⟨[], rfl, rfl⟩
    | cons h hs ih =>
      intro hmem
      obtain ⟨ls, hb, hm⟩ := ih (List.forall_mem_cons.1 hmem).2
      have hh := hmem h (List.mem_cons_self ..)
      exact ⟨⟨h.1, HDRD, h.2, H.key_ne h hh, H.key_hchar h hh, List.cons_ne_nil _ _,
        List.all_eq_true.1 (by decide), H.value_char h hh, H.value_head h hh⟩ :: ls,
        by simp [hb, HeaderLine.bytes, builtHeader], by simp [hm]⟩
  obtain ⟨ls, hb, hm⟩ := hlines _ fun _ h => h
  have := FlatState.run_block H.request_ne H.request_char ls tail
  rw [hb, hm] at this
  rw [TRequest.buildTo_flatten, builtHead, List.flatten_nil, List.append_nil]
  exact this

theorem trim_sp (xs : List UInt8) : trim (SP :: xs) = trim xs := rfl

/-- Built headers are read as names and values by a peer. -/
theorem readFields_built {hs : List (List UInt8 × List UInt8)} {rest rest' : List UInt8}
    {fs : List (List UInt8 × List UInt8)} (hne : ∀ h ∈ hs, h.1 ≠ [])
    (hkey : ∀ h ∈ hs, ∀ b ∈ h.1, isHchar b) (hvalue : ∀ h ∈ hs, ∀ b ∈ h.2, isChar b)
    (hrest : readFields rest = some (fs, rest')) :
    readFields (hs.flatMap builtHeader ++ rest) =
      some (hs.map (fun h => (h.1, trim h.2)) ++ fs, rest') := by
  induction hs with
  | nil => exact hrest
  | cons h hs ih =>
    have ih := ih (List.forall_mem_cons.1 hne).2 (List.forall_mem_cons.1 hkey).2
      (List.forall_mem_cons.1 hvalue).2
    have hk := hkey h (List.mem_cons_self ..)
    have hline : ∀ b ∈ h.1 ++ COLON :: SP :: h.2, isText b := by
      simp only [List.forall_mem_append, List.forall_mem_cons]
      exact ⟨fun b hb => isHchar_isChar (hk b hb), rfl, rfl, hvalue h List.mem_cons_self⟩
    have hcolon : ∀ b ∈ h.1, b ≠ Http11.COLON := by
      rintro b hb rfl
      exact absurd (isHchar_isHdelim (hk _ hb)) (by decide)
    have hf := readField_colon hcolon (SP :: h.2)
    rw [trim_sp] at hf
    have hb : (h :: hs).flatMap builtHeader ++ rest =
        h.1 ++ COLON :: SP :: h.2 ++ crlf ++ (hs.flatMap builtHeader ++ rest) := by
      simp only [List.flatMap_cons, builtHeader, List.append_assoc, List.cons_append]
      rfl
    rw [hb]
    exact readFields_cons (by simp) hline hf ih

/-- What `BuildTo` writes is read by a peer as the request and the custom fields. -/
theorem readHead_builtHead {req : FlatRequest} (H : req.WF) {custom : TChunkList} {fs : List Field}
    (hcustom : custom.flatten = fs.flatMap Field.encode) (tail : List UInt8) :
    readHead (builtHead req custom ++ tail) =
      some (req.request, req.headers.map (fun h => (h.1, trim h.2)) ++
        fs.map (fun f => (f.name, f.value)), tail) := by
  have hrest := readFields_encode fs tail
  have := readHead_eq H.request_char (readFields_built H.key_ne H.key_hchar H.value_char hrest)
  rw [builtHead, hcustom]
  simp only [List.append_assoc] at this ⊢
  exact this

/-! ### The headers that are taken out -/

/-- `matchedRegexp` on the bytes of a key. -/
def checkedName (key : List UInt8) : Option Nat :=
  headersToCheck.findIdx? fun name => name.map Http11.lower == key.map Http11.lower

theorem matchedRegexp_eq (key : TChunkList) : matchedRegexp key = checkedName key.flatten := rfl

/-- The two names that matter for the framing, among the five that are looked for. -/
theorem checkedName_iff (key : List UInt8) :
    (checkedName key = some 3 ↔ SameName key transferEncoding) ∧
      (checkedName key = some 2 ↔ SameName key contentLength) := by
  unfold checkedName SameName
  generalize key.map Http11.lower = k
  simp only [headersToCheck, List.findIdx?_cons, List.findIdx?_nil]
  constructor
  · constructor
    · intro h
      repeat' split at h
      all_goals simp_all [transferEncoding]
    · rintro rfl
      decide
  · constructor
    · intro h
      repeat' split at h
      all_goals simp_all [contentLength]
    · rintro rfl
      decide

/-! ### Numbers in `size_t` -/

/-- The value of a numeral that is computed from left to right in `size_t`. -/
def sizeFold (base : Nat) (digit : UInt8 → Int) (ret : Nat) (xs : List UInt8) : Nat :=
  xs.foldl (fun ret b => toSizeT (ret * base + digit b)) ret

/-- The same without any bound. -/
def intFold (base : Nat) (digit : UInt8 → Int) (ret : Int) (xs : List UInt8) : Int :=
  xs.foldl (fun ret b => ret * base + digit b) ret

theorem toSizeT_natCast (n : Nat) : toSizeT n = n % 2 ^ 64 := by
  unfold toSizeT
  omega

/-- Overflow in between does not matter. -/
theorem toSizeT_mul_add (i c : Int) (base : Nat) :
    toSizeT ((toSizeT i : Int) * base + c) = toSizeT (i * base + c) := by
  have h : ((toSizeT i : Nat) : Int) = i % 2 ^ 64 :=
    Int.toNat_of_nonneg (Int.emod_nonneg _ (by decide))
  rw [h, toSizeT, toSizeT, Int.add_emod, Int.mul_emod, Int.emod_emod_of_dvd _ (dvd_refl _),
    ← Int.mul_emod, ← Int.add_emod]

theorem sizeFold_toSizeT (base : Nat) (digit : UInt8 → Int) (i : Int) (xs : List UInt8) :
    sizeFold base digit (toSizeT i) xs = toSizeT (intFold base digit i xs) := by
  induction xs generalizing i with
  | nil => rfl
  | cons b xs ih =>
    rw [sizeFold, List.foldl_cons, ← sizeFold, toSizeT_mul_add, ih]
    rfl

theorem sizeFold_append (base : Nat) (digit : UInt8 → Int) (ret : Nat) (xs ys : List UInt8) :
    sizeFold base digit ret (xs ++ ys) = sizeFold base digit (sizeFold base digit ret xs) ys :=
  List.foldl_append

theorem intFold_numeral {digit : UInt8 → Option Nat} {g : UInt8 → Int}
    (hg : ∀ b d, digit b = some d → g b = d) {base acc n : Nat} {xs : List UInt8}
    (h : Http11.numeral digit base acc xs = some n) : intFold base g acc xs = n := by
  induction xs generalizing acc with
  | nil =>
    cases h
    rfl
  | cons b xs ih =>
    unfold Http11.numeral at h
    split at h
    · cases h
    · next d hd =>
      rw [intFold, List.foldl_cons, ← intFold, hg b d hd]
      exact_mod_cast ih h

/-- A numeral is computed modulo the range of `size_t`. -/
theorem sizeFold_numeral {digit : UInt8 → Option Nat} {g : UInt8 → Int}
    (hg : ∀ b d, digit b = some d → g b = d) {base acc n : Nat} {xs : List UInt8}
    (h : Http11.numeral digit base acc xs = some n) :
    sizeFold base g (acc % 2 ^ 64) xs = n % 2 ^ 64 := by
  rw [← toSizeT_natCast, sizeFold_toSizeT, intFold_numeral hg h, toSizeT_natCast]

/-- `FromString<size_t>` on the bytes of a value. -/
def decSize (xs : List UInt8) : Nat :=
  xs.foldl (fun ret b => toSizeT (ret * 10 + (charToInt b - 48))) 0

theorem fromString_eq (lst : TChunkList) : fromString lst = decSize lst.flatten := by
  rw [decSize, List.foldl_flatten]
  rfl

namespace FlatRequest

def chunkedTransfer (r : FlatRequest) : Bool :=
  r.headers.any fun h => SameName h.1 transferEncoding

/-- The last `Content-Length` counts. -/
def contentLength (r : FlatRequest) : Nat :=
  (((Http11.valuesOf Http11.contentLength r.headers).getLast?).map decSize).getD 0

def stripped (r : FlatRequest) : FlatRequest :=
  { r with headers := r.headers.filter fun h => (checkedName h.1).isNone }

end FlatRequest

/-- The parser and a peer find the same fields, up to the blanks around the values. -/
theorem valuesOf_flatHead (h : Head) (name : List UInt8) :
    valuesOf name (flatHead h).headers = [] ↔ valuesOf name h.view = [] := by
  simp [valuesOf, flatHead, Head.view]

theorem flatHead_chunkedTransfer (h : Head) :
    (flatHead h).chunkedTransfer = false ↔ valuesOf transferEncoding h.view = [] := by
  simp [FlatRequest.chunkedTransfer, valuesOf, flatHead, Head.view]

theorem flatHead_contentLength {h : Head} (hf : framing h.view = some .unframed) :
    (flatHead h).contentLength = 0 := by
  rw [FlatRequest.contentLength, (valuesOf_flatHead h _).2 (framing_contentLength hf)]
  rfl

/-- One pass over the headers, with what it does to the properties and to the headers that are
left. -/
theorem responseParser_flat (props : TResponseProperties) (hdrs : List THeader)
    (flat : List (List UInt8 × List UInt8))
    (hflat : hdrs.map (fun h => (h.key.flatten, h.value.flatten)) = flat) :
    (TResponseParser.parse props hdrs).1.chunkedTransfer =
        (props.chunkedTransfer || flat.any fun h => SameName h.1 transferEncoding) ∧
      (TResponseParser.parse props hdrs).1.contentLength =
        (((valuesOf contentLength flat).getLast?).map decSize).getD props.contentLength ∧
      (TResponseParser.parse props hdrs).2.map (fun h => (h.key.flatten, h.value.flatten)) =
        flat.filter fun h => (checkedName h.1).isNone := by
  subst hflat
  induction hdrs generalizing props with
  | nil => simp [TResponseParser.parse, valuesOf]
  | cons hdr hdrs ih =>
    obtain ⟨hte, hcl⟩ := checkedName_iff hdr.key.flatten
    simp only [TResponseParser.parse, matchedRegexp_eq, List.map_cons]
    split
    · next h =>
      have hcl' : ¬SameName (hdr.key.flatten, hdr.value.flatten).1 contentLength := by
        rw [← hcl, h]; simp
      have hte' : ¬SameName hdr.key.flatten transferEncoding := by rw [← hte, h]; simp
      obtain ⟨h1, h2, h3⟩ := ih props
      rw [valuesOf_cons_neg hcl']
      exact ⟨by simp [h1, hte'], h2, by simp [h3, h]⟩
    · next h =>
      have hcl' : ¬SameName (hdr.key.flatten, hdr.value.flatten).1 contentLength := by
        rw [← hcl, h]; simp
      obtain ⟨h1, h2, h3⟩ := ih { props with chunkedTransfer := true }
      rw [valuesOf_cons_neg hcl']
      exact ⟨by simp [h1, hte.1 h], h2, by simp [h3, h]⟩
    · next h =>
      have hte' : ¬SameName hdr.key.flatten transferEncoding := by rw [← hte, h]; simp
      obtain ⟨h1, h2, h3⟩ := ih { props with contentLength := fromString hdr.value }
      rw [valuesOf_cons_pos (hcl.1 h), List.getLast?_cons]
      refine ⟨by simp [h1, hte'], ?_, by simp [h3, h]⟩
      rw [h2, fromString_eq]
      cases (valuesOf contentLength _).getLast? <;> rfl
    · next n hn3 hn2 h =>
      have hcl' : ¬SameName (hdr.key.flatten, hdr.value.flatten).1 contentLength := by
        rw [← hcl, h]; simpa using hn2
      have hte' : ¬SameName hdr.key.flatten transferEncoding := by
        rw [← hte, h]; simpa using hn3
      obtain ⟨h1, h2, h3⟩ := ih props
      rw [valuesOf_cons_neg hcl']
      exact ⟨by simp [h1, hte'], h2, by simp [h3, h]⟩

/-- `TResponseProperties`, by the bytes of the message. -/
theorem responseProperties_flat (r : TRequest) :
    r.responseProperties.1 = ⟨r.flat.chunkedTransfer, r.flat.contentLength⟩ ∧
      r.responseProperties.2.flat = r.flat.stripped := by
  obtain ⟨h1, h2, h3⟩ := responseParser_flat {} r.headers _ rfl
  refine ⟨?_, ?_⟩
  · rw [Bool.false_or] at h1
    exact TResponseProperties.ext h1 h2
  · exact congrArg (FlatRequest.mk r.request.flatten) h3

end Balancer
