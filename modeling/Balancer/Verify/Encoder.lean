import Balancer.Verify.Heads
import Balancer.Modules.Http.Encoder
import Balancer.Theory.ChunkedCoding

/-!
# What the encoder writes

`sent` sorts the lists that are sent to an encoder: those of the head, and the parts that are passed
to `OnDataPart`. `EncoderState` describes the encoder by them; every `Send` keeps it
(`EncoderState.send`), as long as the head can be parsed. Parts with data are read by a peer as the
body that they make up (`Encoded.decode`).
-/

namespace Balancer

open BlockIO Http11 TTransfer

/-! ### Chunk sizes -/

theorem hexDigit_intToChar : ∀ d < 16, hexDigit (intToChar d) = some d := by decide

theorem numeral_append {digit : UInt8 → Option Nat} {base acc n : Nat} {xs : List UInt8} {b : UInt8}
    {d : Nat} (h : Http11.numeral digit base acc xs = some n) (hb : digit b = some d) :
    Http11.numeral digit base acc (xs ++ [b]) = some (n * base + d) := by
  induction xs generalizing acc with
  | nil =>
    cases h
    simp [Http11.numeral, hb]
  | cons c xs ih =>
    simp only [List.cons_append, Http11.numeral] at h ⊢
    split at h
    · cases h
    · exact ih h

theorem intToString16_ne_nil (n : Nat) : intToString16 n ≠ [] := by
  unfold intToString16
  split <;> simp

theorem numeral_intToString16 (n : Nat) :
    Http11.numeral hexDigit 16 0 (intToString16 n) = some n := by
  induction n using Nat.strongRecOn with
  | ind n ih =>
    unfold intToString16
    split
    · next h => simp [Http11.numeral, hexDigit_intToChar n h]
    · next h =>
      rw [numeral_append (ih (n / 16) (by omega)) (hexDigit_intToChar (n % 16) (by omega))]
      congr 1
      omega

theorem readHex_intToString16 (n : Nat) : readHex (intToString16 n) = some n := by
  rw [readHex, if_neg (intToString16_ne_nil n), numeral_intToString16]

/-! ### Encodings -/

/-- The bytes that `OnDataPart` pushes for a part with the bytes `xs`. -/
def encodePart : TTransfer → List UInt8 → List UInt8
  | .identity, xs => xs
  | .chunked, xs => intToString16 xs.length ++ CRLF ++ xs ++ CRLF

theorem onDataPart_flatten (t : TTransfer) (lst : TChunkList) :
    (t.onDataPart lst).flatten = encodePart t lst.flatten := by
  cases t with
  | identity => rfl
  | chunked => simp [onDataPart, writeChunk, encodePart, TChunkList.fullLength_eq]

/-- `E` encodes `xs` in non-empty parts. -/
def Encoded (t : TTransfer) (xs E : List UInt8) : Prop :=
  ∃ parts : List (List UInt8), (∀ p ∈ parts, p ≠ []) ∧ parts.flatten = xs ∧
    E = parts.flatMap (encodePart t)

namespace Encoded

variable {t : TTransfer} {xs E : List UInt8}

theorem nil (t : TTransfer) : Encoded t [] [] := ⟨[], by simp, rfl, rfl⟩

theorem single {ys : List UInt8} (hy : ys ≠ []) : Encoded t ys (encodePart t ys) :=
  ⟨[ys], by simpa using hy, by simp, by simp⟩

theorem append (H : Encoded t xs E) {ys F : List UInt8} (H' : Encoded t ys F) :
    Encoded t (xs ++ ys) (E ++ F) := by
  obtain ⟨parts, hne, rfl, rfl⟩ := H
  obtain ⟨parts', hne', rfl, rfl⟩ := H'
  exact ⟨parts ++ parts', List.forall_mem_append.2 ⟨hne, hne'⟩, by simp, by simp⟩

theorem identity_eq (H : Encoded .identity xs E) : E = xs := by
  obtain ⟨parts, -, rfl, rfl⟩ := H
  induction parts with
  | nil => rfl
  | cons p ps ih => rw [List.flatMap_cons, List.flatten_cons, ih]; rfl

/-- A part as a chunk of the chunked coding. -/
def chunk (xs : List UInt8) (h : xs ≠ []) : Chunk where
  size := intToString16 xs.length
  ext := []
  data := xs
  data_ne := h
  size_eq := readHex_intToString16 xs.length
  ext_semicolon := by simp
  ext_text := by simp

theorem chunk_encode (h : xs ≠ []) : (chunk xs h).encode = encodePart .chunked xs := by
  simp [Chunk.encode, chunk, encodePart, CRLF, crlf, Http11.CR, Http11.LF]

def lastChunk : LastChunk where
  size := intToString16 0
  ext := []
  size_eq := readHex_intToString16 0
  ext_semicolon := by simp
  ext_text := by simp

theorem chunks (H : Encoded .chunked xs E) :
    ∃ cs : List Chunk, cs.flatMap Chunk.encode = E ∧ cs.flatMap Chunk.data = xs := by
  obtain ⟨parts, hne, rfl, rfl⟩ := H
  induction parts with
  | nil => exact ⟨[], rfl, rfl⟩
  | cons p ps ih =>
    obtain ⟨cs, h1, h2⟩ := ih (List.forall_mem_cons.1 hne).2
    refine ⟨chunk p (hne p (List.mem_cons_self ..)) :: cs, ?_, ?_⟩
    · rw [List.flatMap_cons, List.flatMap_cons, h1, chunk_encode]
    · rw [List.flatMap_cons, List.flatten_cons, h2]
      rfl

/-- What `OnFinish` pushes ends the body for a standard decoder, whatever follows. -/
theorem decode (H : Encoded .chunked xs E) (rest : List UInt8) :
    decodeChunked (E ++ chunked.onFinish.flatten ++ rest) = some (xs, rest) := by
  obtain ⟨cs, rfl, rfl⟩ := H.chunks
  have := decodeChunked_encode cs lastChunk rest
  simpa [encodeChunked, onFinish, writeChunk, TChunkList.fullLength, lastChunk, CRLF,
    crlf, Http11.CR, Http11.LF] using this

end Encoded

/-! ### The encoder -/

namespace THttpEncoder

variable {enc : THttpEncoder TWire} {acc : List UInt8}

theorem flush_reliable (hs : enc.s = ⟨acc, []⟩) (out : TChunkList) :
    enc.flush out = (.ok (), { enc with s := ⟨acc ++ out.flatten, []⟩ }) := by
  unfold flush
  split
  · next h =>
    subst h
    obtain ⟨_, _, _, _⟩ := enc
    simp only at hs
    simp [hs]
  · rw [hs, Wire.send_reliable]

/-- The head has been written. -/
structure InBody (enc : THttpEncoder TWire) (t : TTransfer) (acc : List UInt8) : Prop where
  transfer : enc.transfer = t
  customHeaders : enc.customHeaders = none
  s : enc.s = ⟨acc, []⟩

/-- The head is being parsed. -/
structure InHead (enc : THttpEncoder TWire) (t : TTransfer) (st : FlatState) (custom : TChunkList)
    (acc : List UInt8) : Prop where
  transfer : enc.transfer = t
  customHeaders : enc.customHeaders = some custom
  s : enc.s = ⟨acc, []⟩
  failed : enc.push.failed = false
  unparsed : enc.push.ctx.unparsed = []
  ready : Ready st enc.push.ctx

theorem doSend_body (h : enc.customHeaders = none) (lst : TChunkList) :
    enc.doSend lst = enc.flush (enc.transfer.onDataPart lst) := by
  simp [doSend, h]

theorem finish_body (h : enc.customHeaders = none) :
    enc.finish = enc.flush enc.transfer.onFinish := by
  simp [THttpEncoder.finish, h]

theorem InBody.send {t : TTransfer} (H : InBody enc t acc) (lst : TChunkList) :
    ∃ enc', Sink.send enc lst = (.ok (), enc') ∧
      InBody enc' t (acc ++ encodePart t lst.flatten) := by
  refine ⟨_, (doSend_body H.customHeaders lst).trans (flush_reliable H.s _), H.transfer,
    H.customHeaders, ?_⟩
  rw [onDataPart_flatten, H.transfer]

theorem InBody.finish {t : TTransfer} (H : InBody enc t acc) :
    ∃ enc', enc.finish = (.ok (), enc') ∧ enc'.s = ⟨acc ++ t.onFinish.flatten, []⟩ := by
  refine ⟨_, (finish_body H.customHeaders).trans (flush_reliable H.s _), ?_⟩
  rw [H.transfer]

section Head

variable {custom : TChunkList} {lst u : TChunkList} {push : TPushParseContext}

theorem doSend_more (hc : enc.customHeaders = some custom)
    (hp : enc.push.parseChunk lst = (.ok (false, u), push)) :
    enc.doSend lst = (.ok (), { enc with push }) := by
  simp [doSend, hc, hp, flush]

theorem doSend_error (hc : enc.customHeaders = some custom)
    (hp : enc.push.parseChunk lst = (.error e, push)) :
    enc.doSend lst = (.error e, { enc with push }) := by
  simp [doSend, hc, hp]

theorem doSend_done (hc : enc.customHeaders = some custom)
    (hp : enc.push.parseChunk lst = (.ok (true, u), push)) :
    enc.doSend lst = flush { enc with push, customHeaders := none }
      (push.ctx.request.buildTo custom ++ if u = [] then [] else enc.transfer.onDataPart u) := by
  simp [doSend, hc, hp]

end Head

theorem InHead.init (t : TTransfer) (custom : TChunkList) (acc : List UInt8) :
    InHead { transfer := t, customHeaders := some custom, s := ⟨acc, []⟩ } t {} custom acc :=
  ⟨rfl, rfl, rfl, rfl, rfl, Ready.init⟩

/-- A `Send` while the head is being parsed, by how the flat machine runs on its bytes. A list of
empty chunks after the head counts as data. -/
theorem InHead.send {t : TTransfer} {st : FlatState} {custom : TChunkList}
    (H : InHead enc t st custom acc) (lst : TChunkList) :
    match st.run lst.flatten with
    | .more st' => ∃ enc', enc.push.parseChunk lst = (.ok (false, []), enc'.push) ∧
        Sink.send enc lst = (.ok (), enc') ∧ InHead enc' t st' custom acc
    | .error => ∃ e enc', Sink.send enc lst = (.error e, enc')
    | .done req tail => ∃ u push enc', enc.push.parseChunk lst = (.ok (true, u), push) ∧
        u.flatten = tail ∧ (∃ part rest, u = part ++ rest ∧ (∀ c ∈ part, c ≠ []) ∧ rest <:+ lst) ∧
        Sink.send enc lst = (.ok (), enc') ∧
        InBody enc' t (acc ++ builtHead req custom ++ if u = [] then [] else
          encodePart t tail) := by
  have hx := TPushParseContext.InHead.parseChunk ⟨H.failed, H.unparsed, H.ready⟩ lst
  rcases hp : enc.push.parseChunk lst with ⟨r, push⟩
  rw [hp] at hx
  revert hx
  cases st.run lst.flatten with
  | more st' =>
    rintro ⟨rfl, hpush⟩
    exact ⟨{ enc with push }, rfl, doSend_more H.customHeaders hp,
      H.transfer, H.customHeaders, H.s, hpush.failed, hpush.unparsed, hpush.ready⟩
  | error =>
    rintro rfl
    exact ⟨_, _, doSend_error H.customHeaders hp⟩
  | done req tail =>
    rintro ⟨u, rfl, -, rfl, rfl, hparts⟩
    have hs : ({ enc with push, customHeaders := none } : THttpEncoder TWire).s = ⟨acc, []⟩ := H.s
    refine ⟨u, push, _, rfl, rfl, hparts,
      (doSend_done H.customHeaders hp).trans (flush_reliable hs _), H.transfer, rfl, ?_⟩
    have hpart : (if u = [] then [] else enc.transfer.onDataPart u).flatten =
        if u = [] then [] else encodePart t u.flatten := by
      rw [H.transfer]
      split
      · rfl
      · exact onDataPart_flatten t _
    rw [List.flatten_append, TRequest.buildTo_flatten, ← List.append_assoc, hpart]

end THttpEncoder

/-! ### The lists that are sent -/

/-- What an encoder makes of the lists sent to it: it is still in the head, or it has passed `parts`
to `OnDataPart`. -/
inductive TSent where
  | head (push : TPushParseContext)
  | body (parts : List TChunkList)

def TSent.add : TSent → TChunkList → TSent
  | head push, lst =>
    match push.parseChunk lst with
    | (.ok (true, u), _) => body (if u = [] then [] else [u])
    | (_, push) => head push
  | body parts, lst => body (parts ++ [lst])

def sent (ls : List TChunkList) : TSent := ls.foldl TSent.add (.head {})

theorem sent_concat (ls : List TChunkList) (lst : TChunkList) :
    sent (ls ++ [lst]) = (sent ls).add lst := by
  simp [sent]

/-- The lists with which `OnDataPart` is called. -/
def dataParts (ls : List TChunkList) : List TChunkList :=
  match sent ls with
  | .head _ => []
  | .body parts => parts

def encodeParts (t : TTransfer) (parts : List TChunkList) : List UInt8 :=
  parts.flatMap fun l => encodePart t l.flatten

theorem encoded_parts {parts : List TChunkList} (h : ∀ l ∈ parts, HasData l) (t : TTransfer) :
    Encoded t (bytesOf parts) (encodeParts t parts) := by
  induction parts with
  | nil => exact .nil t
  | cons l parts ih =>
    rw [bytesOf_cons]
    exact (Encoded.single (h l (List.mem_cons_self ..))).append
      (ih (List.forall_mem_cons.1 h).2)

/-- What is written after the head starts with a size line. -/
theorem encodeParts_start (parts : List TChunkList) (rest : List UInt8) :
    ∃ b xs, encodeParts .chunked parts ++ chunked.onFinish.flatten ++ rest = b :: xs ∧
      isHexDigit b = true := by
  have hsize : ∀ n xs, ∃ b ys, intToString16 n ++ xs = b :: ys ∧ isHexDigit b = true := by
    intro n xs
    obtain ⟨hne, hhex⟩ := readHex_isHexDigit (readHex_intToString16 n)
    obtain ⟨b, ys, hb⟩ := List.exists_cons_of_ne_nil hne
    rw [hb] at hhex ⊢
    exact ⟨b, ys ++ xs, rfl, hhex b (List.mem_cons_self ..)⟩
  cases parts with
  | nil =>
    have := hsize 0 (CRLF ++ CRLF ++ rest)
    simpa [encodeParts, onFinish, writeChunk, TChunkList.fullLength] using this
  | cons l parts =>
    have := hsize l.flatten.length (CRLF ++ l.flatten ++ CRLF ++
      (encodeParts .chunked parts ++ chunked.onFinish.flatten ++ rest))
    simpa [encodeParts, encodePart] using this

/-- The parts as a client decodes them: up to the first one without data, which is written as a last
chunk. -/
theorem decodeChunked_parts (parts : List TChunkList) (rest : List UInt8) :
    (∀ l ∈ parts, HasData l) ∧ decodeChunked
        (encodeParts .chunked parts ++ chunked.onFinish.flatten ++ rest) =
          some (bytesOf parts, rest) ∨
    (¬∀ l ∈ parts, HasData l) ∧ ∃ data parts', decodeChunked
        (encodeParts .chunked parts ++ chunked.onFinish.flatten ++ rest) =
          some (data, encodeParts .chunked parts' ++ chunked.onFinish.flatten ++ rest) := by
  by_cases hall : ∀ l ∈ parts, HasData l
  · exact .inl ⟨hall, (encoded_parts hall .chunked).decode rest⟩
  · refine .inr ⟨hall, ?_⟩
    obtain ⟨ps, l, qs, rfl, hps, hl⟩ : ∃ ps l qs, parts = ps ++ l :: qs ∧ (∀ p ∈ ps, HasData p) ∧
        ¬HasData l := by
      clear rest
      induction parts with
      | nil => exact absurd (by simp) hall
      | cons l parts ih =>
        by_cases hl : HasData l
        · obtain ⟨ps, l', qs, rfl, hps, hl'⟩ := ih fun h => hall (List.forall_mem_cons.2 ⟨hl, h⟩)
          exact ⟨l :: ps, l', qs, rfl, List.forall_mem_cons.2 ⟨hl, hps⟩, hl'⟩
        · exact ⟨[], l, parts, rfl, by simp, hl⟩
    have hpart : encodePart .chunked l.flatten = chunked.onFinish.flatten := by
      rw [not_not.1 hl]
      simp [encodePart, onFinish, writeChunk, TChunkList.fullLength]
    refine ⟨bytesOf ps, qs, ?_⟩
    rw [← (encoded_parts hps .chunked).decode]
    congr 1
    simp [encodeParts, hpart]

/-- An encoder to which the lists `ls` were sent, when `acc` had been written before. -/
def EncoderState (t : TTransfer) (custom : TChunkList) (acc : List UInt8) (ls : List TChunkList)
    (enc : THttpEncoder TWire) : Prop :=
  match sent ls with
  | .head push => enc.push = push ∧
      ∃ st, ({} : FlatState).run (bytesOf ls) = .more st ∧ enc.InHead t st custom acc
  | .body parts => ∃ req, ({} : FlatState).run (bytesOf ls) = .done req (bytesOf parts) ∧
      enc.InBody t (acc ++ builtHead req custom ++ encodeParts t parts)

namespace EncoderState

variable {t : TTransfer} {custom : TChunkList} {acc : List UInt8} {ls : List TChunkList}
  {enc : THttpEncoder TWire}

theorem init (t : TTransfer) (custom : TChunkList) (acc : List UInt8) :
    EncoderState t custom acc [] { transfer := t, customHeaders := some custom, s := ⟨acc, []⟩ } :=
  ⟨rfl, {}, rfl, .init t custom acc⟩

theorem send (H : EncoderState t custom acc ls enc) {lst : TChunkList}
    (hne : ({} : FlatState).run (bytesOf (ls ++ [lst])) ≠ .error) :
    ∃ enc', Sink.send enc lst = (.ok (), enc') ∧ EncoderState t custom acc (ls ++ [lst]) enc' := by
  have hbytes : bytesOf (ls ++ [lst]) = bytesOf ls ++ lst.flatten := by simp
  unfold EncoderState at H ⊢
  rw [sent_concat]
  rw [hbytes, FlatState.run_append] at hne ⊢
  cases hsent : sent ls with
  | head push =>
    rw [hsent] at H
    obtain ⟨rfl, st, hrun, H⟩ := H
    have hs := H.send lst
    rw [hrun] at hne ⊢
    simp only [FlatRun.append] at hne ⊢
    revert hne hs
    cases st.run lst.flatten with
    | error => exact fun hne => absurd rfl hne
    | more st' =>
      rintro - ⟨enc', hp, hs, H'⟩
      refine ⟨enc', hs, ?_⟩
      rw [TSent.add, hp]
      exact ⟨rfl, st', rfl, H'⟩
    | done req tail =>
      rintro - ⟨u, push, enc', hp, rfl, -, hs, H'⟩
      refine ⟨enc', hs, ?_⟩
      rw [TSent.add, hp]
      refine ⟨req, ?_, ?_⟩
      · split <;> simp_all
      · split at H'
        · next h0 => simpa [h0, encodeParts] using H'
        · next h0 => simpa [h0, encodeParts] using H'
  | body parts =>
    rw [hsent] at H
    obtain ⟨req, hrun, H⟩ := H
    obtain ⟨enc', hs, H'⟩ := H.send lst
    refine ⟨enc', hs, req, ?_, ?_⟩
    · rw [hrun]
      simp [FlatRun.append]
    · simpa [encodeParts] using H'

/-- A head that can be parsed is not in error at any point. -/
theorem run_ne_error_left {a b : List UInt8} (h : ({} : FlatState).run (a ++ b) ≠ .error) :
    ({} : FlatState).run a ≠ .error := by
  intro h0
  rw [FlatState.run_append, h0] at h
  exact h rfl

/-- The first one of lists whose bytes do not put the parser into error. -/
theorem send_cons (H : EncoderState t custom acc ls enc) {lst : TChunkList} {rest : List TChunkList}
    (hne : ({} : FlatState).run (bytesOf (ls ++ lst :: rest)) ≠ .error) :
    ∃ enc', Sink.send enc lst = (.ok (), enc') ∧ EncoderState t custom acc (ls ++ [lst]) enc' := by
  have hcons : ls ++ lst :: rest = ls ++ [lst] ++ rest := by simp
  rw [hcons, bytesOf_append] at hne
  exact H.send (run_ne_error_left hne)

/-- Lists whose bytes do not put the parser into error are all taken. -/
theorem exists_sendAll (t : TTransfer) (custom : TChunkList) (acc : List UInt8)
    (hne : ({} : FlatState).run (bytesOf ls) ≠ .error) :
    ∃ enc, Sink.sendAll
      { transfer := t, customHeaders := some custom, s := (⟨acc, []⟩ : TWire) } ls =
        ((.ok (), enc) : Except TException Unit × THttpEncoder TWire) ∧
      EncoderState t custom acc ls enc := by
  induction ls using List.reverseRecOn with
  | nil => exact ⟨_, rfl, init ..⟩
  | append_singleton ls lst ih =>
    have hleft : ({} : FlatState).run (bytesOf ls) ≠ .error := by
      rw [bytesOf_append] at hne
      exact run_ne_error_left hne
    obtain ⟨enc, hs, H⟩ := ih hleft
    obtain ⟨enc', hs', H'⟩ := H.send hne
    exact ⟨enc', (sendAll_concat hs lst).trans hs', H'⟩

/-- When the head is complete the encoder has passed the bytes behind it to `OnDataPart`. -/
theorem body_of_done (H : EncoderState t custom acc ls enc) {req : FlatRequest} {tail : List UInt8}
    (hrun : ({} : FlatState).run (bytesOf ls) = .done req tail) :
    ∃ parts, sent ls = .body parts ∧ bytesOf parts = tail ∧
      enc.InBody t (acc ++ builtHead req custom ++ encodeParts t parts) := by
  unfold EncoderState at H
  rw [hrun] at H
  cases hsent : sent ls with
  | head push =>
    rw [hsent] at H
    obtain ⟨-, st, hst, -⟩ := H
    cases hst
  | body parts =>
    rw [hsent] at H
    obtain ⟨req', hreq, hbody⟩ := H
    obtain ⟨rfl, rfl⟩ := FlatRun.done.inj hreq
    exact ⟨parts, rfl, rfl, hbody⟩

/-- Lists that make up a complete response are sorted into its head and its body. -/
theorem sent_complete {h : Http11.Head} {body : List UInt8} (hls : bytesOf ls = h.encode ++ body) :
    ∃ parts, sent ls = .body parts ∧ bytesOf parts = body := by
  have hrun : ({} : FlatState).run (bytesOf ls) = .done (flatHead h) body := by
    rw [hls, FlatState.run_encode]
  obtain ⟨enc, -, H⟩ := exists_sendAll .identity [] [] (show _ ≠ FlatRun.error by rw [hrun]; simp)
  obtain ⟨parts, hs, hb, -⟩ := H.body_of_done hrun
  exact ⟨parts, hs, hb⟩

end EncoderState

end Balancer
