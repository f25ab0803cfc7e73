import Balancer.Verify.Relay
import Balancer.Verify.Sends

/-!
# What is made of the headers of a message

`FromString<size_t>` multiplies and adds, whatever the characters are: a length is stored for every
value of a `Content-Length`, and the blanks that the parser leaves behind a number count as digits
(`contentLength_stored_iff`). The version of a request is the last character of its line, and the
value of its `Connection` is not looked at (`version_respected_iff`).
-/

namespace Balancer

open BlockIO Http11 THttpModule

/-! ### Lengths -/

/-- The length that a value declares: decimal digits and blanks behind them, in the range of
`size_t`. -/
def lengthValue (value : List UInt8) : Option Nat :=
  (readDec (value.rdropWhile isBlank)).filter (· < 2 ^ 64)

/-- What blanks take away when they are read as digits. -/
def blankSum : List UInt8 → Nat
  | [] => 0
  | b :: bs => (48 - b.toNat) * 10 ^ bs.length + blankSum bs

/-- A number in range, with blanks behind it that make it overflow to itself; no blanks do. -/
def PlainLength (value : List UInt8) : Prop :=
  ∃ ds bs n, value = ds ++ bs ∧ (∀ b ∈ bs, isBlank b) ∧ readDec ds = some n ∧ n < 2 ^ 64 ∧
    n * 10 ^ bs.length % 2 ^ 64 = (n + blankSum bs) % 2 ^ 64

theorem charToInt_decDigit (b : UInt8) (d : Nat) (h : decDigit b = some d) :
    charToInt b - 48 = d := by
  unfold decDigit at h
  split at h
  · next hb =>
    cases h
    simp only [isDigit, Bool.and_eq_true, decide_eq_true_eq, UInt8.le_iff_toNat_le] at hb
    obtain ⟨h1, h2⟩ := hb
    simp at h1 h2
    unfold charToInt
    split <;> omega
  · cases h

theorem charToInt_blank {b : UInt8} (h : isBlank b) :
    charToInt b - 48 = -((48 - b.toNat : Nat) : Int) := by
  rcases (by simpa [isBlank] using h : b = Http11.SP ∨ b = Http11.HT) with rfl | rfl <;> rfl

theorem intFold_blanks {bs : List UInt8} (h : ∀ b ∈ bs, isBlank b) (i : Int) :
    intFold 10 (charToInt · - 48) i bs = i * 10 ^ bs.length - blankSum bs := by
  induction bs generalizing i with
  | nil => simp [intFold, blankSum]
  | cons b bs ih =>
    rw [intFold, List.foldl_cons, ← intFold, ih (List.forall_mem_cons.1 h).2,
      charToInt_blank (h b (List.mem_cons_self ..)), blankSum, List.length_cons, pow_succ]
    push_cast
    ring

theorem readDec_numeral {ds : List UInt8} {n : Nat} (h : readDec ds = some n) :
    ds ≠ [] ∧ Http11.numeral decDigit 10 0 ds = some n := by
  unfold readDec at h
  split at h
  · cases h
  · next hne => exact ⟨hne, h⟩

/-- A number with blanks behind it, as it is computed. -/
theorem decSize_blanks {ds bs : List UInt8} {n : Nat} (hd : readDec ds = some n)
    (hb : ∀ b ∈ bs, isBlank b) :
    decSize (ds ++ bs) = toSizeT ((n * 10 ^ bs.length : Nat) - blankSum bs) := by
  calc decSize (ds ++ bs) = sizeFold 10 (charToInt · - 48) (toSizeT 0) (ds ++ bs) := rfl
    _ = toSizeT (intFold 10 (charToInt · - 48) (intFold 10 (charToInt · - 48) (0 : Nat) ds)
      bs) := by
      rw [sizeFold_toSizeT, intFold, List.foldl_append]
      rfl
    _ = toSizeT ((n * 10 ^ bs.length : Nat) - blankSum bs) := by
      rw [intFold_numeral charToInt_decDigit (readDec_numeral hd).2, intFold_blanks hb]
      push_cast
      rfl

theorem toSizeT_eq_iff {n a s : Nat} (hn : n < 2 ^ 64) :
    toSizeT ((a : Int) - s) = n ↔ a % 2 ^ 64 = (n + s) % 2 ^ 64 := by
  unfold toSizeT
  omega

theorem rdropWhile_blanks {ds bs : List UInt8} {n : Nat} (hd : readDec ds = some n)
    (hb : ∀ b ∈ bs, isBlank b) : (ds ++ bs).rdropWhile isBlank = ds := by
  have hsome : (Http11.numeral decDigit 10 0 ds).isSome := by rw [(readDec_numeral hd).2]; rfl
  have hdigit : ∀ b ∈ ds, ¬isBlank b := by
    intro b hbs hblank
    have hb' := numeral_isSome_digit hsome b hbs
    rcases (by simpa [isBlank] using hblank : b = Http11.SP ∨ b = Http11.HT) with rfl | rfl <;>
      cases hb'
  induction bs using List.reverseRecOn with
  | nil =>
    rw [List.append_nil, List.rdropWhile_eq_self_iff]
    exact fun hne => hdigit _ (List.getLast_mem hne)
  | append_singleton bs b ih =>
    rw [← List.append_assoc, List.rdropWhile_concat_pos _ _ _ (hb b (by simp))]
    exact ih fun c hc => hb c (List.mem_append_left _ hc)

/-- The length that is computed for a value is the one that it declares. -/
theorem lengthValue_decSize_iff (v : List UInt8) :
    lengthValue v = some (decSize v) ↔ PlainLength v := by
  constructor
  · intro h
    obtain ⟨hd, hlt⟩ := Option.filter_eq_some_iff.1 h
    rw [decide_eq_true_eq] at hlt
    have hv : v.rdropWhile isBlank ++ v.rtakeWhile isBlank = v := by
      rw [List.rdropWhile, List.rtakeWhile, ← List.reverse_append, List.takeWhile_append_dropWhile,
        List.reverse_reverse]
    have hb : ∀ b ∈ v.rtakeWhile isBlank, isBlank b := fun b hb => List.mem_rtakeWhile_imp hb
    refine ⟨_, _, _, hv.symm, hb, hd, hlt, ?_⟩
    rw [← toSizeT_eq_iff hlt, ← decSize_blanks hd hb, hv]
  · rintro ⟨ds, bs, n, rfl, hb, hd, hlt, hsum⟩
    rw [lengthValue, rdropWhile_blanks hd hb, decSize_blanks hd hb, (toSizeT_eq_iff hlt).2 hsum, hd]
    exact Option.filter_some_pos (decide_eq_true hlt)

/-- Every message with a `Content-Length` in any cut: the length that is stored is the one that the
last of them declares, if and only if there is nothing behind the number that changes it. There is
no error for a value that declares no length. -/
theorem contentLength_stored_iff (props : TResponseProperties) (pre post : List THeader)
    (hdr : THeader) (hkey : SameName hdr.key.flatten contentLength)
    (hpost : ∀ h ∈ post, ¬SameName h.key.flatten contentLength) :
    lengthValue hdr.value.flatten =
        some (TResponseParser.parse props (pre ++ hdr :: post)).1.contentLength ↔
      PlainLength hdr.value.flatten := by
  have hparse := (responseParser_flat props (pre ++ hdr :: post) _ rfl).2.1
  have hlast : (valuesOf contentLength
      ((pre ++ hdr :: post).map fun h => (h.key.flatten, h.value.flatten))).getLast? =
        some hdr.value.flatten := by
    have hnone : valuesOf contentLength
        (post.map fun h => (h.key.flatten, h.value.flatten)) = [] := by
      rw [valuesOf_eq_nil]
      simpa using hpost
    rw [List.map_append, List.map_cons, valuesOf_append, valuesOf_cons_pos hkey, hnone,
      List.getLast?_concat]
  rw [hparse, hlast]
  exact lengthValue_decSize_iff _

/-- A length of 12 in two chunks, behind another header. -/
theorem contentLength_stored_twelve : lengthValue (ascii "12") =
    some (TResponseParser.parse {} [⟨[ascii "Host"], [ascii "a"]⟩,
      ⟨[ascii "content-", ascii "length"], [ascii "1", ascii "2"]⟩]).1.contentLength :=
  (contentLength_stored_iff {} [⟨[ascii "Host"], [ascii "a"]⟩] []
    ⟨[ascii "content-", ascii "length"], [ascii "1", ascii "2"]⟩ (by decide) (by simp)).2
    ⟨ascii "12", [], 12, by decide, by simp, by decide, by decide, by decide⟩

/-- A blank behind the number: 12 is stored as 104. -/
theorem contentLength_stored_blank :
    SameName (ascii "Content-Length") contentLength ∧
    lengthValue (ascii "12 ") = some 12 ∧
    (TResponseParser.parse {} [⟨[ascii "Content-Length"], [ascii "12 "]⟩]).1.contentLength =
      104 := by
  decide

/-! ### Versions -/

/-- The bytes behind the last blank. -/
def lastToken (line : List UInt8) : List UInt8 := line.rtakeWhile fun b => !isBlank b

/-- The last token of the line is `HTTP/1.1` or a later version `HTTP/1.x`. -/
def LaterVersion (line : List UInt8) : Prop :=
  ∃ ds n, lastToken line = ascii "HTTP/1." ++ ds ∧ readDec ds = some n ∧ 1 ≤ n

/-- No `Connection` of the request is `close`. -/
def NoClose (r : FlatRequest) : Prop :=
  ∀ h ∈ r.headers, SameName h.1 (ascii "Connection") → ¬SameName h.2 (ascii "close")

/-- The version and the `Connection` of a request decide how it is answered: its response is sent in
chunks only to a later version, and only then, and without a `close`, is the connection kept open
for another request, whatever the inner module does. -/
structure VersionRespected {σ : Type} [IIoInput σ] (m : THttpModule) (r : TRequest)
    (it : TStreamIterator σ) : Prop where
  chunked : r.requestProperties.1.chunkedTransfer = true → LaterVersion r.flat.request
  kept : ∀ (handler : TRequest → TBehaviour) (output : TWire),
    (m.run handler r.requestProperties.2 r.requestProperties.1 it output).1 = .ok true →
      LaterVersion r.flat.request ∧ NoClose r.flat

namespace THttpModule

variable {σ : Type} [IIoInput σ]

theorem run_eq {m : THttpModule} {request : TRequest} (h : request.request.fullLength ≤ m.maxReq)
    (handler : TRequest → TBehaviour) (props : TRequestProperties) (it : TStreamIterator σ)
    (output : TWire) :
    (m.run handler request props it output).1 =
      (runEncoded (if props.chunkedTransfer then .chunked else .identity)
        (contextHeaders (m.keepAlive && props.keepAlive) props.chunkedTransfer) (handler request)
        props.contentLength it output).1.map fun _ => m.keepAlive && props.keepAlive := by
  rw [THttpModule.run, if_neg (Nat.not_lt.2 h)]

/-- A connection is kept open when both sides agree to it. -/
theorem run_kept {m : THttpModule} {handler : TRequest → TBehaviour} {request : TRequest}
    {props : TRequestProperties} {it : TStreamIterator σ} {output : TWire}
    (h : (m.run handler request props it output).1 = .ok true) :
    request.request.fullLength ≤ m.maxReq ∧ m.keepAlive = true ∧ props.keepAlive = true := by
  by_cases hle : request.request.fullLength ≤ m.maxReq
  · rw [run_eq hle] at h
    generalize (runEncoded _ _ _ _ it output).1 = x at h
    cases x with
    | error e => cases h
    | ok _ => exact ⟨hle, (Bool.and_eq_true ..).mp (Except.ok.inj h)⟩
  · rw [THttpModule.run, if_pos (Nat.lt_of_not_le hle)] at h
    cases h

/-- An inner module that answers with a head and nothing else. -/
def answerOk : TBehaviour := .send [okBlock] fun _ => .ret

theorem runEncoded_answerOk (t : TTransfer) (headers : TChunkList) (contentLength : Nat)
    (it : TStreamIterator σ) :
    (runEncoded t headers answerOk contentLength it ({} : TWire)).1 = .ok () := by
  have hrun : ({} : FlatState).run (bytesOf ([] ++ [[okBlock]])) =
      .done ⟨ascii "HTTP/1.1 200 OK", []⟩ [] :=
    okBlock_run
  obtain ⟨enc, hs, H⟩ :=
    (EncoderState.init t headers []).send (show _ ≠ FlatRun.error by rw [hrun]; simp)
  obtain ⟨parts, -, -, hbody⟩ := H.body_of_done hrun
  obtain ⟨enc', hfin, -⟩ := hbody.finish
  have hdec : ∃ it', runDecoded answerOk contentLength it
      { transfer := t, customHeaders := some headers, s := ({} : TWire) } = (.ok (), it', enc) := by
    by_cases hcl : contentLength = 0
    · exact ⟨it, by simp [runDecoded, answerOk, Prog.run, hcl, hs]⟩
    · exact ⟨it, by simp [runDecoded, answerOk, Prog.run, hcl, hs]⟩
  obtain ⟨it', hdec⟩ := hdec
  rw [runEncoded_ok hdec, hfin]

end THttpModule

/-- Every request that the parser accepts, in any cut, and every configuration: the version and the
`Connection` of the request are respected if and only if its line ends with `0`, or its last token
is a later version and it has no `close` (unless it is not kept open anyway). -/
theorem version_respected_iff {σ : Type} [IIoInput σ] (m : THttpModule) {it it' : TStreamIterator σ}
    {r : TRequest} (hp : parsedRequest m.maxLen it = (.ok r, it')) :
    VersionRespected m r it' ↔
      (∀ b ∈ r.flat.request.getLast?, b = 48) ∨
        LaterVersion r.flat.request ∧
          (m.keepAlive = true → r.flat.request.length ≤ m.maxReq → NoClose r.flat) := by
  obtain ⟨hch, hka⟩ := parsedRequest_version_iff hp
  have hline : r.requestProperties.2.request.fullLength = r.flat.request.length :=
    TChunkList.fullLength_eq _
  by_cases hlast : ∀ b ∈ r.flat.request.getLast?, b = 48
  · have hoff : r.requestProperties.1.keepAlive ≠ true := fun h => hka.1 h hlast
    refine iff_of_true ⟨fun h => absurd (hch ▸ h) hoff, fun handler output h => ?_⟩ (.inl hlast)
    exact absurd (run_kept h).2.2 hoff
  · have hon : r.requestProperties.1.keepAlive = true := hka.2 hlast
    rw [or_iff_right hlast]
    constructor
    · intro H
      refine ⟨H.chunked (hch.trans hon), fun hm hle => ?_⟩
      refine (H.kept (fun _ => answerOk) {} ?_).2
      rw [run_eq (hline ▸ hle), runEncoded_answerOk, hm, hon]
      rfl
    · rintro ⟨hver, hclose⟩
      refine ⟨fun _ => hver, fun handler output h => ⟨hver, ?_⟩⟩
      obtain ⟨hle, hm, -⟩ := run_kept h
      exact hclose hm (hline ▸ hle)

/-- A request line and nothing else, in two chunks. -/
def bareRequest (a b : String) : TStreamIterator TNullStream :=
  ⟨.mk, [ascii a, ascii b ++ ascii "\r\n\r\n"]⟩

theorem version_respected_later :
    (parsedRequest 0 (bareRequest "GET / HTTP/1" ".1")).1 =
        .ok ⟨[ascii "GET / HTTP/1", ascii ".1"], []⟩ ∧
      VersionRespected {} ⟨[ascii "GET / HTTP/1", ascii ".1"], []⟩
        (parsedRequest 0 (bareRequest "GET / HTTP/1" ".1")).2 := by
  have hp : (parsedRequest 0 (bareRequest "GET / HTTP/1" ".1")).1 =
      .ok ⟨[ascii "GET / HTTP/1", ascii ".1"], []⟩ := by decide +kernel
  refine ⟨hp, (version_respected_iff {} (Prod.ext hp rfl)).2 (.inr ⟨?_, fun _ _ => ?_⟩)⟩
  · exact ⟨ascii "1", 1, by decide +kernel, by decide, le_refl 1⟩
  · intro h hh
    cases hh

/-- A request line without a version is answered in chunks. -/
theorem version_respected_none :
    (parsedRequest 0 (bareRequest "GET " "/a")).1 = .ok ⟨[ascii "GET ", ascii "/a"], []⟩ ∧
      ¬VersionRespected {} ⟨[ascii "GET ", ascii "/a"], []⟩
        (parsedRequest 0 (bareRequest "GET " "/a")).2 := by
  refine ⟨by decide +kernel, fun H => ?_⟩
  obtain ⟨ds, n, htok, -⟩ := H.chunked (by decide +kernel)
  have hlast : lastToken (TRequest.flat ⟨[ascii "GET ", ascii "/a"], []⟩).request = ascii "/a" := by
    decide +kernel
  rw [hlast] at htok
  have hhead : (ascii "/a").head? = (ascii "HTTP/1.").head? := by rw [htok]; rfl
  exact absurd hhead (by decide)

end Balancer
