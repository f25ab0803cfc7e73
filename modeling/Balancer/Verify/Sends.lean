import Balancer.Verify.Encoder

/-!
# A response in any number of sends

The encoder may be given a response in any cut: `Send`s that end in the middle of the header block,
that hold its end together with data, and `Send`s of a list without chunks. The head is always
rebuilt, and the parts that reach `OnDataPart` make up the body (`EncoderState.finish`). A list
without chunks is harmless while the header block is not complete; after that the chunked coding
writes it as a last chunk (`hasData_iff_emptyWithin`).
-/

namespace Balancer

open BlockIO FlatState
open Http11 (ascii)

/-- The bytes after a head as the encoding of exactly one body. -/
def TTransfer.Encodes : TTransfer → List UInt8 → List UInt8 → Prop
  | .identity, written, body => written = body
  | .chunked, written, body => Http11.decodeChunked written = some (body, [])

/-- `Send` for every list of `ls` and then `Finish()`. -/
def THttpEncoder.sendResponse {τ : Type} [IIoOutput τ] (enc : THttpEncoder τ)
    (ls : List TChunkList) : Except TException Unit × THttpEncoder τ :=
  match Sink.sendAll enc ls with
  | (.ok (), enc) => enc.finish
  | (.error e, enc) => (.error e, enc)

/-- Every list without chunks is sent before the first `n` bytes are complete. -/
def EmptyWithin (n : Nat) (ls : List TChunkList) : Prop :=
  ∀ pre post, ls = pre ++ [] :: post → (bytesOf pre).length < n

theorem emptyWithin_nil (n : Nat) : EmptyWithin n [] := by
  intro pre post h
  simp at h

theorem emptyWithin_concat {n : Nat} {ls : List TChunkList} {lst : TChunkList} :
    EmptyWithin n (ls ++ [lst]) ↔ EmptyWithin n ls ∧ (lst = [] → (bytesOf ls).length < n) := by
  constructor
  · intro h
    refine ⟨fun pre post hls => h pre (post ++ [lst]) (by simp [hls]), ?_⟩
    rintro rfl
    exact h ls [] rfl
  · rintro ⟨h, hlast⟩ pre post hls
    rcases List.eq_nil_or_concat post with rfl | ⟨post, l, rfl⟩
    · obtain ⟨rfl, hl⟩ := List.append_inj' hls rfl
      exact hlast (List.cons.inj hl).1
    · have hsplit : ls ++ [lst] = (pre ++ [] :: post) ++ [l] := by simpa using hls
      exact h pre post (List.append_inj' hsplit rfl).1

/-! ### Where the header block ends -/

section Block

variable {H D xs ys : List UInt8} {req : FlatRequest}

theorem FlatState.length_of_more {st : FlatState} (hH : ({} : FlatState).run H = .done req [])
    (hxs : xs ++ ys = H ++ D) (h : ({} : FlatState).run xs = .more st) : xs.length < H.length := by
  by_contra hlen
  have hpre : H <+: xs :=
    List.prefix_of_prefix_length_le ⟨D, rfl⟩ ⟨ys, hxs⟩ (Nat.le_of_not_lt hlen)
  obtain ⟨d, rfl⟩ := hpre
  rw [run_append, hH] at h
  cases h

theorem FlatState.length_of_done {req' : FlatRequest} {tail : List UInt8}
    (hH : ({} : FlatState).run H = .done req []) (hxs : xs ++ ys = H ++ D)
    (h : ({} : FlatState).run xs = .done req' tail) : H.length ≤ xs.length := by
  by_contra hlen
  have hpre : xs <+: H :=
    List.prefix_of_prefix_length_le ⟨ys, hxs⟩ ⟨D, rfl⟩ (Nat.le_of_not_le hlen)
  obtain ⟨z, rfl⟩ := hpre
  rw [run_append, h] at hH
  have hz : z = [] := (List.append_eq_nil_iff.1 (FlatRun.done.inj hH).2).2
  exact hlen (by simp [hz])

end Block

/-! ### The parts of the body -/

namespace EncoderState

variable {t : TTransfer} {custom : TChunkList} {acc : List UInt8} {ls : List TChunkList}
  {enc : THttpEncoder TWire}

theorem run_of_head {push : TPushParseContext} (H : EncoderState t custom acc ls enc)
    (hs : sent ls = .head push) :
    enc.push = push ∧ ∃ st, ({} : FlatState).run (bytesOf ls) = .more st ∧
      enc.InHead t st custom acc := by
  rwa [EncoderState, hs] at H

theorem run_of_body {parts : List TChunkList} (H : EncoderState t custom acc ls enc)
    (hs : sent ls = .body parts) :
    ∃ req, ({} : FlatState).run (bytesOf ls) = .done req (bytesOf parts) ∧
      enc.InBody t (acc ++ builtHead req custom ++ encodeParts t parts) := by
  rwa [EncoderState, hs] at H

/-- The list with which the header block is complete leaves no part or one with data. -/
theorem hasData_of_add {push : TPushParseContext} (H : EncoderState t custom acc ls enc)
    (hs : sent ls = .head push) {lst : TChunkList} (hc : ∀ c ∈ lst, c ≠ [])
    {parts : List TChunkList} (hadd : (sent ls).add lst = .body parts) :
    ∀ l ∈ parts, HasData l := by
  obtain ⟨rfl, st, -, hin⟩ := H.run_of_head hs
  have hspec := TPushParseContext.InHead.parseChunk ⟨hin.failed, hin.unparsed, hin.ready⟩ lst
  rw [hs, TSent.add] at hadd
  split at hadd
  · next u push hp =>
    rw [hp] at hspec
    have hu : ∀ c ∈ u, c ≠ [] := by
      cases hrun : st.run lst.flatten with
      | more st' => rw [hrun] at hspec; cases hspec.1
      | error => rw [hrun] at hspec; cases hspec
      | done req tail =>
        rw [hrun] at hspec
        obtain ⟨u', hu', -, -, -, part, rest, rfl, hpart, hrest⟩ := hspec
        cases hu'
        exact List.forall_mem_append.2 ⟨hpart, fun c h => hc c (hrest.subset h)⟩
    cases hadd
    intro l hl
    split at hl
    · cases hl
    · next hne =>
      rw [List.mem_singleton.1 hl]
      exact Proper.hasData ⟨hne, hu⟩
  · cases hadd

end EncoderState

section Parts

variable {H D : List UInt8} {req : FlatRequest}

theorem FlatState.run_ne_error (hH : ({} : FlatState).run H = .done req []) {xs ys : List UInt8}
    (hxs : xs ++ ys = H ++ D) : ({} : FlatState).run xs ≠ .error := by
  apply EncoderState.run_ne_error_left
  rw [hxs, run_append, hH]
  simp [FlatRun.append]

theorem TSent.add_body (parts : List TChunkList) (lst : TChunkList) :
    (TSent.body parts).add lst = .body (parts ++ [lst]) := rfl

/-- What `sent` makes of the first lists of a response. -/
def SentSpec (n : Nat) (ls : List TChunkList) : TSent → Prop
  | .head _ => (bytesOf ls).length < n ∧ EmptyWithin n ls
  | .body parts => n ≤ (bytesOf ls).length ∧ ((∀ l ∈ parts, HasData l) ↔ EmptyWithin n ls)

theorem sentSpec_of_block (hH : ({} : FlatState).run H = .done req []) {ls : List TChunkList}
    {ys : List UInt8} (hls : bytesOf ls ++ ys = H ++ D) (hc : ∀ l ∈ ls, ∀ c ∈ l, c ≠ []) :
    SentSpec H.length ls (sent ls) := by
  induction ls using List.reverseRecOn generalizing ys with
  | nil =>
    have hlt : ([] : List UInt8).length < H.length := length_of_more hH hls rfl
    exact ⟨hlt, emptyWithin_nil _⟩
  | append_singleton ls lst ih =>
    have hbytes : bytesOf ls ++ (lst.flatten ++ ys) = H ++ D := by simpa using hls
    have hc' : ∀ c ∈ lst, c ≠ [] := hc lst (by simp)
    specialize ih hbytes fun l hl => hc l (List.mem_append_left _ hl)
    obtain ⟨enc, -, hst⟩ := EncoderState.exists_sendAll .identity [] []
      (run_ne_error hH hbytes)
    obtain ⟨enc', -, hst'⟩ := EncoderState.exists_sendAll .identity [] []
      (run_ne_error hH hls)
    cases hs : sent ls with
    | head push =>
      rw [hs] at ih
      have hwithin : EmptyWithin H.length (ls ++ [lst]) :=
        emptyWithin_concat.2 ⟨ih.2, fun _ => ih.1⟩
      cases hs' : sent (ls ++ [lst]) with
      | head push' =>
        obtain ⟨-, st, hrun, -⟩ := hst'.run_of_head hs'
        exact ⟨length_of_more hH hls hrun, hwithin⟩
      | body parts =>
        obtain ⟨req', hrun, -⟩ := hst'.run_of_body hs'
        rw [sent_concat] at hs'
        exact ⟨length_of_done hH hls hrun,
          iff_of_true (hst.hasData_of_add hs hc' hs') hwithin⟩
    | body parts =>
      rw [hs] at ih
      obtain ⟨hlen, hiff⟩ := ih
      rw [sent_concat, hs, TSent.add_body]
      refine ⟨by simp; omega, ?_⟩
      -- after the header block a list has data or is without chunks
      have hlst : HasData lst ↔ lst ≠ [] := ⟨HasData.ne_nil, fun hne => Proper.hasData ⟨hne, hc'⟩⟩
      have hlt : ¬(bytesOf ls).length < H.length := Nat.not_lt.2 hlen
      rw [emptyWithin_concat, ← hiff, List.forall_mem_append, List.forall_mem_singleton, hlst]
      exact and_congr_right fun _ => ⟨fun h h0 => absurd h0 h, fun h h0 => hlt (h h0)⟩

end Parts

/-! ### The response -/

/-- What is written after the head encodes the bytes of the parts when all of them have data. -/
theorem encodes_parts_iff (t : TTransfer) (parts : List TChunkList) :
    t.Encodes (encodeParts t parts ++ t.onFinish.flatten) (bytesOf parts) ↔
      t = .identity ∨ ∀ l ∈ parts, HasData l := by
  cases t with
  | identity =>
    refine iff_of_true ?_ (.inl rfl)
    simp only [TTransfer.Encodes, TTransfer.onFinish, List.flatten_nil, List.append_nil]
    induction parts with
    | nil => rfl
    | cons l parts ih => rw [bytesOf_cons, ← ih]; rfl
  | chunked =>
    have hparts := decodeChunked_parts parts []
    rw [List.append_nil] at hparts
    rw [TTransfer.Encodes]
    rcases hparts with ⟨hall, hd⟩ | ⟨hall, data, parts', hd⟩
    · exact iff_of_true hd (.inr hall)
    · -- the bytes from the next size line on are left over
      obtain ⟨b, xs, hb, -⟩ := encodeParts_start parts' []
      refine iff_of_false ?_ (by simpa using hall)
      rw [hd, hb]
      intro h
      cases h

/-- The lists are all taken, and what is written by `Finish()` is the head of `req`, rebuilt with
the custom headers, and an encoding of exactly the body. -/
def SendsResponse (t : TTransfer) (custom : TChunkList) (req : FlatRequest) (body : List UInt8)
    (ls : List TChunkList) : Prop :=
  ∃ enc written, THttpEncoder.sendResponse
      { transfer := t, customHeaders := some custom, s := ({} : TWire) } ls = (.ok (), enc) ∧
    enc.s.accepted = builtHead req custom ++ written ∧ t.Encodes written body

/-- A header block, a body, and every cut of the two into lists of non-empty chunks, sent in this
order and followed by `Finish()`: the response is written with an encoding of exactly the body if
and only if the coding is the identity or no list without chunks is sent after the header block. -/
theorem encoder_split_iff {H D : List UInt8} {req : FlatRequest}
    (hH : ({} : FlatState).run H = .done req []) (t : TTransfer) (custom : TChunkList)
    {ls : List TChunkList} (hls : bytesOf ls = H ++ D) (hc : ∀ l ∈ ls, ∀ c ∈ l, c ≠ []) :
    SendsResponse t custom req D ls ↔ t = .identity ∨ EmptyWithin H.length ls := by
  have hls' : bytesOf ls ++ [] = H ++ D := by rw [List.append_nil, hls]
  obtain ⟨enc, hall, hst⟩ := EncoderState.exists_sendAll t custom [] (run_ne_error hH hls')
  have hspec := sentSpec_of_block hH hls' hc
  have hrun : ({} : FlatState).run (bytesOf ls) = .done req D := by
    rw [hls, run_append, hH]
    rfl
  obtain ⟨parts, hs, hD, hbody⟩ := hst.body_of_done hrun
  rw [hs] at hspec
  obtain ⟨enc', hfin, hs'⟩ := hbody.finish
  have hsend : THttpEncoder.sendResponse
      { transfer := t, customHeaders := some custom, s := ({} : TWire) } ls = (.ok (), enc') := by
    rw [THttpEncoder.sendResponse, hall]
    exact hfin
  have hwritten : enc'.s.accepted =
      builtHead req custom ++ (encodeParts t parts ++ t.onFinish.flatten) := by
    rw [hs']
    simp
  rw [← hspec.2, ← encodes_parts_iff, hD]
  constructor
  · rintro ⟨_, written, h, hw, henc⟩
    rw [hsend] at h
    cases h
    rwa [List.append_cancel_left (hwritten.symm.trans hw)]
  · intro henc
    exact ⟨enc', _, hsend, hwritten, henc⟩

/-- A status line without fields. -/
def okBlock : List UInt8 := ascii "HTTP/1.1 200 OK\r\n\r\n"

theorem okBlock_run : ({} : FlatState).run okBlock = .done ⟨ascii "HTTP/1.1 200 OK", []⟩ [] := by
  decide +kernel

/-- A `Send` without chunks in the middle of the header block. -/
theorem encoder_split_in_head :
    SendsResponse .chunked [] ⟨ascii "HTTP/1.1 200 OK", []⟩ (ascii "hello")
    [[ascii "HTTP/1.1 200"], [], [ascii " OK\r\n\r\nhe", ascii "l"], [ascii "lo"]] := by
  refine (encoder_split_iff okBlock_run .chunked [] (by decide +kernel) (by decide +kernel)).2
    (.inr ?_)
  refine emptyWithin_concat.2 ⟨emptyWithin_concat.2 ⟨emptyWithin_concat.2 ⟨emptyWithin_concat.2
    ⟨emptyWithin_nil _, ?_⟩, ?_⟩, ?_⟩, ?_⟩
  all_goals decide +kernel

/-- A `Send` without chunks between two parts of the body ends the body for the client. -/
theorem encoder_split_in_body :
    ({} : FlatState).run okBlock = .done ⟨ascii "HTTP/1.1 200 OK", []⟩ [] ∧
    bytesOf [[okBlock], [ascii "he"], [], [ascii "llo"]] = okBlock ++ ascii "hello" ∧
    (∀ l ∈ [[okBlock], [ascii "he"], [], [ascii "llo"]], ∀ c ∈ l, c ≠ []) ∧
    ¬SendsResponse .chunked [] ⟨ascii "HTTP/1.1 200 OK", []⟩ (ascii "hello")
      [[okBlock], [ascii "he"], [], [ascii "llo"]] := by
  refine ⟨okBlock_run, by decide +kernel, by decide +kernel, ?_⟩
  rintro ⟨enc, written, h, hw, henc⟩
  have hout : (THttpEncoder.sendResponse
      { transfer := .chunked, customHeaders := some [], s := ({} : TWire) }
      [[okBlock], [ascii "he"], [], [ascii "llo"]]).2.s.accepted =
      builtHead ⟨ascii "HTTP/1.1 200 OK", []⟩ [] ++
        ascii "2\r\nhe\r\n0\r\n\r\n3\r\nllo\r\n0\r\n\r\n" := by decide +kernel
  rw [h] at hout
  rw [List.append_cancel_left (hw.symm.trans hout)] at henc
  revert henc
  unfold TTransfer.Encodes
  decide +kernel

end Balancer
