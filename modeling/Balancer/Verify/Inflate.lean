import Balancer.Theory.Transducer
import Balancer.Modules.Spdy.Inflate
import Balancer.Verify.Frames

/-!
# Blocks that are decompressed

The stream of a peer is a transducer from compressed bytes to text. `Inflates` is what is assumed of
the library: a call moves text to its output and stops when it has taken its input, or when there is
no room for more. A call of `Decompress` returns the block that was compressed exactly if that block
has room in the chunk, which is allocated for four times the compressed length
(`decompress_exact_iff`); otherwise it returns the beginning of the block without an error, and the
stream is out of step.
-/

namespace Balancer.Spdy

open BlockIO Transducer

variable {ι κ : Type}

/-- A library that decodes with `T`. `At strm k held` says that a stream has come to the state `k`
of the transducer and holds back the text `held`. A dictionary that is accepted is the one that the
stream was compressed with. -/
structure Inflates (Z : ZInflateLib ι) (T : Transducer UInt8 UInt8 κ) where
  At : ι → κ → List UInt8 → Prop
  length_out : ∀ room input strm, (Z.inflate room input strm).out.length ≤ room
  inflate_at : ∀ room input strm k held r, At strm k held → Z.inflate room input strm = r →
    r.rv = Z_OK ∨ r.rv = Z_NEED_DICT →
    ∃ k' held', At r.strm k' held' ∧ T.Moves k held input r.out k' held' r.rest ∧
      (r.rv = Z_OK → T.Stops room r.out k' held' r.rest)
  setDictionary_at : ∀ dict strm k held, At strm k held →
    (Z.inflateSetDictionary dict strm).1 = Z_OK →
    At (Z.inflateSetDictionary dict strm).2 k held

namespace TInflate

variable {Z : ZInflateLib ι} {T : Transducer UInt8 UInt8 κ} (C : Inflates Z T) {d d' : TInflate ι}
  {k : κ}
  {held out out' : List UInt8} {c : TChunk} {lst text : TChunkList} {room : Nat}

/-! ### The loop of `Decompress` -/

theorem inflateChunk_length (C : Inflates Z T) (room : Nat) (c : TChunk) (d : TInflate ι) :
    (inflateChunk Z room c d).2.1.length ≤ room := by
  have h := C.length_out room (c.take (c.length % 2 ^ 32)) d.strm
  unfold inflateChunk
  simp only
  split
  · split
    · exact h
    · split
      · next dict _ _ =>
        have h' := C.length_out (room -
          (Z.inflate room (c.take (c.length % 2 ^ 32)) d.strm).out.length)
          (Z.inflate room (c.take (c.length % 2 ^ 32)) d.strm).rest
          (Z.inflateSetDictionary dict (Z.inflate room (c.take (c.length % 2 ^ 32)) d.strm).strm).2
        rw [List.length_append]
        omega
      · exact h
  · exact h

/-- A turn that does not throw is one call of the library, or two with the dictionary set between
them. -/
theorem inflateChunk_ok (hc : c.length < 2 ^ 32) (h : inflateChunk Z room c d = (Z_OK, out, d')) :
    (∃ r, Z.inflate room c d.strm = r ∧ r.rv = Z_OK ∧ out = r.out ∧ d' = ⟨r.strm, r.rest⟩) ∨
    ∃ r dict r', Z.inflate room c d.strm = r ∧ r.rv = Z_NEED_DICT ∧
      (Z.inflateSetDictionary dict r.strm).1 = Z_OK ∧
      Z.inflate (room - r.out.length) r.rest (Z.inflateSetDictionary dict r.strm).2 = r' ∧
      r'.rv = Z_OK ∧ out = r.out ++ r'.out ∧ d' = ⟨r'.strm, r'.rest⟩ := by
  rw [inflateChunk, Nat.mod_eq_of_lt hc, List.take_length] at h
  simp only at h
  split at h
  · next hneed =>
    split at h
    · cases hneed.symm.trans (congrArg Prod.fst h)
    · next dict _ =>
      split at h
      · next hset =>
        obtain ⟨hok, h⟩ := Prod.mk.inj h
        obtain ⟨rfl, rfl⟩ := Prod.mk.inj h
        exact .inr ⟨_, dict, _, rfl, hneed, hset, rfl, hok, rfl, rfl⟩
      · next hset => exact absurd (congrArg Prod.fst h) hset
  · obtain ⟨hok, h⟩ := Prod.mk.inj h
    obtain ⟨rfl, rfl⟩ := Prod.mk.inj h
    exact .inl ⟨_, rfl, hok, rfl, rfl⟩

theorem inflateChunk_at (h : C.At d.strm k held) (hc : c.length < 2 ^ 32)
    (hx : inflateChunk Z room c d = (Z_OK, out, d')) :
    ∃ k' held', C.At d'.strm k' held' ∧ T.Moves k held c out k' held' d'.input ∧
      T.Stops room out k' held' d'.input := by
  rcases inflateChunk_ok hc hx with
    ⟨r, hr, hok, rfl, rfl⟩ | ⟨r, dict, r', hr, hneed, hset, hr', hok, rfl, rfl⟩
  · obtain ⟨k', held', hat, hmoves, hstops⟩ := C.inflate_at _ _ _ _ _ r h hr (.inl hok)
    exact ⟨k', held', hat, hmoves, hstops hok⟩
  · obtain ⟨k₁, held₁, hat₁, hmoves₁, -⟩ := C.inflate_at _ _ _ _ _ r h hr (.inr hneed)
    obtain ⟨k', held', hat, hmoves, hstops⟩ :=
      C.inflate_at _ _ _ _ _ r' (C.setDictionary_at _ _ _ _ hat₁ hset) hr' (.inl hok)
    refine ⟨k', held', hat, hmoves₁.trans hmoves, (hstops hok).imp_right fun hfull => ⟨?_, hfull.2⟩⟩
    have hle := C.length_out room c d.strm
    rw [hr] at hle
    rw [List.length_append, hfull.1]
    omega

theorem inflateChunks_length (C : Inflates Z T) (hout : out.length ≤ room)
    (hx : inflateChunks Z room lst out d = (.ok out', d')) : out'.length ≤ room := by
  induction lst generalizing out d with
  | nil =>
    cases hx
    exact hout
  | cons c lst ih =>
    rw [inflateChunks] at hx
    split at hx
    · cases hx
    · have := inflateChunk_length C (room - out.length) c d
      refine ih ?_ hx
      rw [List.length_append]
      omega

/-- While there is room for the text of all chunks, each call of the library takes its chunk. -/
theorem inflateChunks_fits (h : C.At d.strm k []) (hin : d.input = [])
    (hc : ∀ c ∈ lst, c.length < 2 ^ 32)
    (hroom : out.length + (T.output k lst.flatten).length ≤ room)
    (hx : inflateChunks Z room lst out d = (.ok out', d')) :
    out' = out ++ T.output k lst.flatten ∧ d'.input = [] ∧
      C.At d'.strm (T.state k lst.flatten) [] := by
  induction lst generalizing out d k with
  | nil =>
    cases hx
    exact ⟨by simp, hin, h⟩
  | cons c lst ih =>
    rw [List.forall_mem_cons] at hc
    rw [List.flatten_cons, output_append, List.length_append] at hroom
    rw [inflateChunks] at hx
    rcases hcall : inflateChunk Z (room - out.length) c d with ⟨rv, out₁, d₁⟩
    rw [hcall] at hx
    simp only at hx
    split at hx
    · cases hx
    · next hok =>
      rw [not_not] at hok
      subst hok
      obtain ⟨k', held', hat, hmoves, hstops⟩ := inflateChunk_at C h hc.1 hcall
      have hpending : T.pending k [] c = T.output k c := rfl
      obtain ⟨rfl, rfl, rfl, hin₁⟩ := hmoves.done hstops (by rw [hpending]; omega)
      rw [hpending] at hx
      have := ih hat hin₁ hc.2 (by rw [List.length_append]; omega) hx
      rwa [List.append_assoc, ← output_append, ← state_append,
        ← List.flatten_cons] at this

/-! ### One call -/

theorem decompress_ok (h : d.decompress Z lst = (.ok text, d')) :
    ∃ out, inflateChunks Z (availOut lst) lst [] d = (.ok out, d') ∧ text = [out] := by
  unfold decompress at h
  split at h
  · cases h
  · next out d₁ hx =>
    cases h
    exact ⟨out, hx, rfl⟩

/-- The block of a frame has less than 2^24 bytes, so the length of its chunk is a `uInt`. -/
theorem availOut_eq (hlen : lst.fullLength < 2 ^ 24) :
    availOut lst = newChunkLength (lst.fullLength * 4) := by
  have h : newChunkLength (lst.fullLength * 4) < 2 ^ 27 := newChunkLength_lt (by omega)
  exact Nat.mod_eq_of_lt (h.trans (by decide))

theorem decompress_fits (h : C.At d.strm k []) (hin : d.input = []) (hlen : lst.fullLength < 2 ^ 24)
    (hx : d.decompress Z lst = (.ok text, d'))
    (hroom : (T.output k lst.flatten).length ≤ newChunkLength (lst.fullLength * 4)) :
    text.flatten = T.output k lst.flatten ∧ d'.input = [] ∧
      C.At d'.strm (T.state k lst.flatten) [] := by
  obtain ⟨out, hloop, rfl⟩ := decompress_ok hx
  have hc : ∀ c ∈ lst, c.length < 2 ^ 32 := by
    intro c hc
    have := (List.sublist_flatten_of_mem hc).length_le
    rw [TChunkList.fullLength_eq] at hlen
    omega
  have := inflateChunks_fits C h hin hc (by rw [availOut_eq hlen]; simpa using hroom) hloop
  rwa [List.nil_append, ← List.flatten_singleton (l := out)] at this

theorem decompress_length (C : Inflates Z T) (hlen : lst.fullLength < 2 ^ 24)
    (hx : d.decompress Z lst = (.ok text, d')) :
    text.flatten.length ≤ newChunkLength (lst.fullLength * 4) := by
  obtain ⟨out, hloop, rfl⟩ := decompress_ok hx
  rw [List.flatten_singleton, ← availOut_eq hlen]
  exact inflateChunks_length C (Nat.zero_le _) hloop

/-! ### The blocks of a connection -/

/-- Every call that returns, returns the block that was compressed, and leaves no input. -/
def Exact (texts : List (List UInt8)) (calls : List (Except TException TChunkList × TInflate ι)) :
    Prop :=
  ∀ (j : Nat) (text : TChunkList) (d' : TInflate ι), calls[j]? = some (.ok text, d') →
    texts[j]? = some text.flatten ∧ d'.input = []

/-- In every call that returns, the block has room in the chunk that is allocated for it. -/
def HasRoom (blocks : List TChunkList) (texts : List (List UInt8))
    (calls : List (Except TException TChunkList × TInflate ι)) : Prop :=
  ∀ (j : Nat) (text : TChunkList) (d' : TInflate ι), calls[j]? = some (.ok text, d') →
    ∀ (lst : TChunkList) (t : List UInt8), blocks[j]? = some lst → texts[j]? = some t →
      t.length ≤ newChunkLength (lst.fullLength * 4)

theorem exact_cons_iff {t : List UInt8} {texts : List (List UInt8)}
    {calls : List (Except TException TChunkList × TInflate ι)} :
    Exact (t :: texts) ((.ok text, d) :: calls) ↔ (text.flatten = t ∧ d.input = []) ∧
      Exact texts calls := by
  unfold Exact
  rw [← Nat.and_forall_add_one]
  simp only [List.getElem?_cons_zero, List.getElem?_cons_succ, Option.some.injEq, Prod.mk.injEq,
    Except.ok.injEq]
  refine and_congr_left' ⟨fun h => ?_, ?_⟩
  · obtain ⟨ht, hin⟩ := h text d ⟨rfl, rfl⟩
    exact ⟨ht.symm, hin⟩
  · rintro ⟨rfl, hin⟩ _ _ ⟨rfl, rfl⟩
    exact ⟨rfl, hin⟩

theorem hasRoom_cons_iff {t : List UInt8} {blocks : List TChunkList} {texts : List (List UInt8)}
    {calls : List (Except TException TChunkList × TInflate ι)} :
    HasRoom (lst :: blocks) (t :: texts) ((.ok text, d) :: calls) ↔
      t.length ≤ newChunkLength (lst.fullLength * 4) ∧ HasRoom blocks texts calls := by
  unfold HasRoom
  rw [← Nat.and_forall_add_one]
  simp only [List.getElem?_cons_zero, List.getElem?_cons_succ, Option.some.injEq, Prod.mk.injEq,
    Except.ok.injEq]
  refine and_congr_left' ⟨fun h => h text d ⟨rfl, rfl⟩ lst t rfl rfl, ?_⟩
  rintro h _ _ ⟨rfl, rfl⟩ _ _ rfl rfl
  exact h

/-- For all blocks that a peer has compressed, in any cut: the calls of `Decompress` return exactly
these blocks and leave no input, up to a call that throws, exactly if every block has room in the
chunk for four times its compressed length. -/
theorem decompress_exact_iff (h : C.At d.strm k []) (hin : d.input = []) {blocks : List TChunkList}
    (hlen : ∀ lst ∈ blocks, lst.fullLength < 2 ^ 24) {texts : List (List UInt8)}
    (htexts : T.outputs k (blocks.map List.flatten) = texts) :
    Exact texts (decompressAll Z blocks d) ↔ HasRoom blocks texts (decompressAll Z blocks d) := by
  subst htexts
  induction blocks generalizing d k with
  | nil =>
    have hnil : ∀ (j : Nat) (x : Except TException TChunkList × TInflate ι),
        (decompressAll Z [] d)[j]? ≠ some x := fun j x hx => by cases hx
    exact ⟨fun _ j text d' hx => absurd hx (hnil j _), fun _ j text d' hx => absurd hx (hnil j _)⟩
  | cons lst blocks ih =>
    rw [List.forall_mem_cons] at hlen
    rcases hcall : decompress Z lst d with ⟨e | text, d₁⟩
    · have hthrow : ∀ (j : Nat) (text : TChunkList) (d' : TInflate ι),
          (decompressAll Z (lst :: blocks) d)[j]? ≠ some (.ok text, d') := by
        rintro (_ | j) text d' hx
        · rw [decompressAll, hcall] at hx
          cases hx
        · rw [decompressAll, hcall] at hx
          cases hx
      exact ⟨fun _ j text d' hx => absurd hx (hthrow j _ _),
        fun _ j text d' hx => absurd hx (hthrow j _ _)⟩
    · rw [decompressAll, hcall, List.map_cons, outputs, exact_cons_iff, hasRoom_cons_iff]
      -- the first call leaves the stream in step with the peer, so that the next one starts like it
      have hstep := decompress_fits C h hin hlen.1 hcall
      constructor
      · rintro ⟨⟨ht, -⟩, hrest⟩
        have hroom := decompress_length C hlen.1 hcall
        rw [ht] at hroom
        obtain ⟨-, hin₁, hat⟩ := hstep hroom
        exact ⟨hroom, (ih hat hin₁ hlen.2).1 hrest⟩
      · rintro ⟨hroom, hrest⟩
        obtain ⟨ht, hin₁, hat⟩ := hstep hroom
        exact ⟨⟨ht, hin₁⟩, (ih hat hin₁ hlen.2).2 hrest⟩

end TInflate

/-! ### A library -/

/-- Every byte stands for `n` copies of it. -/
def runs (n : Nat) : Transducer UInt8 UInt8 Unit where
  step _ b := (List.replicate n b, ())

namespace RunLib

variable {n : Nat}

/-- Write what is held; while there is room, take a byte and write its copies. What was written,
what is left of the input and what is held. -/
def drain (n : Nat) : Nat → List UInt8 → List UInt8 → List UInt8 × List UInt8 × List UInt8
  | room, [], held => (held.take room, [], held.drop room)
  | room, b :: input, held =>
    if room < held.length then (held.take room, b :: input, held.drop room)
    else
      let r := drain n (room - held.length) input (List.replicate n b)
      (held ++ r.1, r.2)

/-- A library without dictionaries, whose calls always return `Z_OK`. -/
def lib (n : Nat) : ZInflateLib (List UInt8) where
  adler32 _ := 0
  adler _ := 0
  inflate room input held := ⟨Z_OK, (drain n room input held).1, (drain n room input held).2.1,
    (drain n room input held).2.2⟩
  inflateSetDictionary _ held := (Z_OK, held)

theorem drain_moves (room : Nat) (input held : List UInt8) :
    (drain n room input held).1.length ≤ room ∧
    (runs n).Moves () held input (drain n room input held).1 () (drain n room input held).2.2
      (drain n room input held).2.1 ∧
    (runs n).Stops room (drain n room input held).1 () (drain n room input held).2.2
      (drain n room input held).2.1 := by
  induction input generalizing room held with
  | nil =>
    refine ⟨List.length_take_le .., ⟨?_, rfl⟩, ?_⟩
    · simp [drain, pending, List.take_append_drop]
    · rcases Nat.lt_or_ge room held.length with hlt | hle
      · exact .inr ⟨List.length_take_of_le hlt.le, by
          simpa [drain, pending] using hlt⟩
      · exact .inl ⟨List.drop_of_length_le hle, rfl⟩
  | cons b input ih =>
    rw [drain]
    split
    · next hlt =>
      refine ⟨List.length_take_le .., ⟨?_, rfl⟩, .inr ⟨List.length_take_of_le hlt.le, ?_⟩⟩
      · simp only [pending, ← List.append_assoc, List.take_append_drop]
      · simp [pending, hlt]
    · next hle =>
      obtain ⟨hlen, hmoves, hstops⟩ := ih (room - held.length) (List.replicate n b)
      refine ⟨?_, ⟨?_, rfl⟩, hstops.imp_right fun h => ⟨?_, h.2⟩⟩
      · rw [List.length_append]
        omega
      · rw [List.append_assoc, hmoves.text]
        rfl
      · rw [List.length_append, h.1]
        omega

def inflates (n : Nat) : Inflates (lib n) (runs n) where
  At strm _ held := strm = held
  length_out room input strm := (drain_moves room input strm).1
  inflate_at room input strm k held r h hr _ := by
    subst h hr
    exact ⟨(), _, rfl, (drain_moves room input strm).2.1,
      fun _ => (drain_moves room input strm).2.2⟩
  setDictionary_at _ _ _ _ h _ := h

end RunLib

namespace TInflate

/-- Two blocks that have room, the first one in two chunks. -/
theorem decompress_exact_two :
    Exact [List.replicate 16 7 ++ List.replicate 16 8, List.replicate 16 9]
      (decompressAll (RunLib.lib 16) [[[7], [8]], [[9]]] ⟨[], []⟩) :=
  (decompress_exact_iff (RunLib.inflates 16) (d := ⟨[], []⟩) (k := ()) rfl rfl (by decide)
    (by decide)).2 <| by
    rw [show decompressAll (RunLib.lib 16) [[[7], [8]], [[9]]] ⟨[], []⟩ =
      [(.ok [List.replicate 16 7 ++ List.replicate 16 8], ⟨[], []⟩),
        (.ok [List.replicate 16 9], ⟨[], []⟩)] from by
        decide +kernel, hasRoom_cons_iff, hasRoom_cons_iff]
    exact ⟨by decide, by decide, fun j text d' hx => by cases hx⟩

/-- A block of 80 bytes, compressed to two, has a chunk of 32 bytes. The call returns the first 32
bytes and leaves a byte of the input, which is lost; the next call returns the text that was held
before its own. -/
theorem decompress_exact_prefix :
    (runs 40).outputs () [[7, 8], [9]] =
        [List.replicate 40 7 ++ List.replicate 40 8, List.replicate 40 9] ∧
    (RunLib.inflates 40).At [] () [] ∧
    decompressAll (RunLib.lib 40) [[[7, 8]], [[9]]] ⟨[], []⟩ =
      [(.ok [List.replicate 32 7], ⟨List.replicate 8 7, [8]⟩),
        (.ok [List.replicate 8 7 ++ List.replicate 24 9], ⟨List.replicate 16 9, []⟩)] := by
  refine ⟨by decide, rfl, by decide +kernel⟩

end TInflate

end Balancer.Spdy
