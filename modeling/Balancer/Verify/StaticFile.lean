import Balancer.Modules.Static.Module
import Balancer.Verify.Relay

/-!
# Files over HTTP

A request to the static module behind the http module. The head travels with the first block of the
file, so that the encoder of the http module sees a head if and only if there is a block.
-/

namespace Balancer

open BlockIO ParseHttpRequest THttpModule
open Http11 (ascii Head Field)

/-! ### What the module sends -/

/-- A behaviour that sends `ls`, when every `Send` is accepted, and returns. -/
inductive Writes : TBehaviour → List TChunkList → Prop
  | ret : Writes .ret []
  | send {l : TChunkList} {k : Except TException Unit → TBehaviour} {ls : List TChunkList} :
    Writes (k (.ok ())) ls → Writes (.send l k) (l :: ls)

theorem Writes.run {σ : Type} [IIoInput σ] {p : TBehaviour} {ls : List TChunkList} (H : Writes p ls)
    (src : σ) {t : TTransfer} {custom : TChunkList} {acc : List UInt8} {ls₀ : List TChunkList}
    {enc : THttpEncoder TWire} (he : EncoderState t custom acc ls₀ enc)
    (hne : ({} : FlatState).run (bytesOf (ls₀ ++ ls)) ≠ .error) :
    ∃ enc', p.run src enc = (.ok (), src, enc') ∧ EncoderState t custom acc (ls₀ ++ ls) enc' := by
  induction H generalizing ls₀ enc with
  | ret => exact ⟨enc, rfl, by rwa [List.append_nil]⟩
  | @send l k ls _ ih =>
    have hcons : ls₀ ++ l :: ls = ls₀ ++ [l] ++ ls := by simp
    obtain ⟨enc₁, hs, he₁⟩ := he.send_cons hne
    rw [hcons] at hne ⊢
    obtain ⟨enc₂, hr, he₂⟩ := ih he₁ hne
    refine ⟨enc₂, ?_, he₂⟩
    simp only [Prog.run, hs]
    exact hr

namespace TRegularFile

variable (f : TRegularFile)

/-- The rest of a file is sent in blocks, with `lst` in front of the first one. -/
theorem writes_sendAll (off : Nat) (lst : TChunkList) (h : off < f.data.length) :
    ∃ b blocks, Writes (f.sendAll off lst) ((lst ++ [b]) :: blocks.map fun b => [b]) ∧
      (∀ c ∈ b :: blocks, c ≠ []) ∧ (b :: blocks).flatten = f.data.drop off := by
  have hne : f.preadChunk off ≠ [] := by
    rw [preadChunk_eq]
    simp only [ne_eq, List.take_eq_nil_iff, List.drop_eq_nil_iff]
    have := le_newChunkLength 7000
    omega
  have hsplit : f.preadChunk off ++ f.data.drop (off + (f.preadChunk off).length) =
      f.data.drop off := by
    have hprefix : f.preadChunk off <+: f.data.drop off := preadChunk_eq f off ▸ List.take_prefix ..
    rw [← List.drop_drop]
    nth_rewrite 1 [List.prefix_iff_eq_take.1 hprefix]
    exact List.take_append_drop ..
  rw [sendAll, dif_neg hne]
  by_cases hend : off + (f.preadChunk off).length < f.data.length
  · obtain ⟨b, blocks, hwrites, hblocks, hflat⟩ := writes_sendAll _ [] hend
    refine ⟨f.preadChunk off, b :: blocks, .send hwrites, ?_, ?_⟩
    · exact List.forall_mem_cons.2 ⟨hne, hblocks⟩
    · rw [List.flatten_cons, hflat, hsplit]
  · -- the next read is empty
    have hdrop : f.data.drop (off + (f.preadChunk off).length) = [] :=
      List.drop_eq_nil_iff.2 (by omega)
    have hnext : f.preadChunk (off + (f.preadChunk off).length) = [] := by
      rw [preadChunk_eq, hdrop, List.take_nil]
    refine ⟨f.preadChunk off, [], .send ?_, ?_, ?_⟩
    · simp only
      rw [sendAll, dif_pos hnext]
      exact .ret
    · exact List.forall_mem_cons.2 ⟨hne, by simp⟩
    · rw [List.flatten_singleton, ← hsplit, hdrop, List.append_nil]
termination_by f.data.length - off
decreasing_by
  have hpos := List.length_pos_iff.2 hne
  omega

theorem sendAll_empty (lst : TChunkList) (h : f.data = []) : f.sendAll 0 lst = .ret := by
  rw [sendAll, dif_pos]
  rw [preadChunk_eq, h, List.drop_nil, List.take_nil]

end TRegularFile

/-! ### The lists at the encoder -/

theorem sent_append {ls parts : List TChunkList} (h : sent ls = .body parts)
    (ls' : List TChunkList) : sent (ls ++ ls') = .body (parts ++ ls') := by
  induction ls' using List.reverseRecOn with
  | nil => simpa using h
  | append_singleton ls' lst ih =>
    rw [← List.append_assoc, sent_concat, ih, TSent.add, List.append_assoc]

/-- A list with the end of the head is one part at most. -/
theorem sent_singleton {lst : TChunkList} {parts : List TChunkList} (h : sent [lst] = .body parts)
    (hdata : bytesOf parts ≠ []) : ∀ l ∈ parts, HasData l := by
  simp only [sent, List.foldl_cons, List.foldl_nil, TSent.add] at h
  split at h
  · next u _ _ =>
    cases h
    intro l hl
    split at hl
    · cases hl
    · next hu =>
      rw [if_neg hu] at hdata
      rw [List.mem_singleton.1 hl]
      rwa [bytesOf, List.flatten_singleton] at hdata
  · cases h

/-- The body of a response in the transfer coding `t`. -/
def Decodes (t : TTransfer) (coded data : List UInt8) : Prop :=
  match t with
  | .identity => coded = data
  | .chunked => Http11.decodeChunked coded = some (data, [])

theorem decodes_parts (t : TTransfer) {parts : List TChunkList} (h : ∀ l ∈ parts, HasData l) :
    Decodes t (encodeParts t parts ++ t.onFinish.flatten) (bytesOf parts) := by
  cases t with
  | identity =>
    show _ ++ [] = _
    rw [List.append_nil]
    exact (encoded_parts h .identity).identity_eq
  | chunked =>
    have hdecode := (encoded_parts h .chunked).decode []
    rwa [List.append_nil] at hdecode

/-! ### The response -/

def contentType : Field :=
  .ofAscii "Content-Type" " application/xhtml+xml" (by decide) (by decide) (by decide)

/-- The head of the response for a file. -/
def okFile (file : List UInt8) : Head :=
  .ofAscii "HTTP/1.1 200 Ok" (if ascii ".xhtml" <:+: file then [contentType] else []) (by decide)
    (by decide)

theorem head_flatten (file : List UInt8) :
    (TStaticModule.head file).flatten = (okFile file).encode := by
  unfold TStaticModule.head okFile
  split
  · decide
  · decide

/-- The parts that the encoder gets for the blocks of a file. -/
theorem sent_file (file : List UInt8) {b : TChunk} {blocks : List TChunk}
    (h : ∀ c ∈ b :: blocks, c ≠ []) :
    ∃ parts, sent ((TStaticModule.head file ++ [b]) :: blocks.map fun b => [b]) = .body parts ∧
      ∀ l ∈ parts, HasData l := by
  have hbytes : bytesOf [TStaticModule.head file ++ [b]] = (okFile file).encode ++ b := by
    rw [← head_flatten]
    simp [bytesOf]
  obtain ⟨parts, hsent, hparts⟩ := EncoderState.sent_complete hbytes
  refine ⟨parts ++ blocks.map fun b => [b], sent_append hsent _, fun l hl => ?_⟩
  rcases List.mem_append.1 hl with hl | hl
  · refine sent_singleton hsent ?_ l hl
    rw [hparts]
    exact h b List.mem_cons_self
  · obtain ⟨c, hc, rfl⟩ := List.mem_map.1 hl
    show [c].flatten ≠ []
    rw [List.flatten_singleton]
    exact h c (List.mem_cons_of_mem _ hc)

section Run

variable {σ : Type} [IIoInput σ] {f : TRegularFile} (file : List UInt8) (t : TTransfer)
  (custom : TChunkList)
  (contentLength : Nat) (it : TStreamIterator σ) (acc : List UInt8)

theorem runEncoded_file (h : f.data ≠ []) :
    ∃ coded, runEncoded t custom (f.sendAll 0 (TStaticModule.head file)) contentLength it
        (⟨acc, []⟩ : TWire) =
      (.ok (), it, ⟨acc ++ (builtHead (flatHead (okFile file)) custom ++ coded), []⟩) ∧
      Decodes t coded f.data := by
  obtain ⟨b, blocks, hwrites, hblocks, hflat⟩ :=
    f.writes_sendAll 0 (TStaticModule.head file) (List.length_pos_iff.2 h)
  have hbytes : bytesOf ((TStaticModule.head file ++ [b]) :: blocks.map fun b => [b]) =
      (okFile file).encode ++ f.data := by
    have hmap : (blocks.map fun b => [b]).flatten = blocks := by
      rw [← List.flatMap_def, List.flatMap_singleton']
    rw [bytesOf_cons, bytesOf, hmap, List.flatten_append, List.flatten_singleton, List.append_assoc,
      head_flatten]
    exact congrArg _ hflat
  have hrun := FlatState.run_encode (okFile file) f.data
  rw [← hbytes] at hrun
  have hne : ({} : FlatState).run
      (bytesOf ([] ++ (TStaticModule.head file ++ [b]) :: blocks.map fun b => [b])) ≠ .error := by
    rw [List.nil_append, hrun]
    simp
  -- the source is not read, whichever it is
  obtain ⟨enc, hdecoded, hstate⟩ : ∃ enc,
      runDecoded (f.sendAll 0 (TStaticModule.head file)) contentLength it
      { transfer := t, customHeaders := some custom, s := (⟨acc, []⟩ : TWire) } =
        (.ok (), it, enc) ∧
      EncoderState t custom acc ((TStaticModule.head file ++ [b]) :: blocks.map fun b => [b])
        enc := by
    unfold runDecoded
    split
    · obtain ⟨enc, hr, he⟩ :=
        hwrites.run (TFixedLengthInput.mk it contentLength) (EncoderState.init t custom acc) hne
      exact ⟨enc, by simp only [hr], he⟩
    · obtain ⟨enc, hr, he⟩ := hwrites.run TNullStream.mk (EncoderState.init t custom acc) hne
      exact ⟨enc, by simp only [hr], he⟩
  obtain ⟨parts, hsent, hparts, hbody⟩ := hstate.body_of_done hrun
  obtain ⟨parts', hsent', hdata⟩ := sent_file file hblocks
  obtain rfl : parts = parts' := TSent.body.inj (hsent.symm.trans hsent')
  obtain ⟨enc', hfinish, hwire⟩ := hbody.finish
  refine ⟨encodeParts t parts ++ t.onFinish.flatten, ?_, hparts ▸ decodes_parts t hdata⟩
  rw [runEncoded_ok hdecoded, hfinish, hwire]
  simp only [List.append_assoc]

theorem runEncoded_empty (h : f.data = []) :
    runEncoded t custom (f.sendAll 0 (TStaticModule.head file)) contentLength it
      (⟨acc, []⟩ : TWire) = (.error (.httpError 500 "malformed http stream"), it, ⟨acc, []⟩) := by
  have hdecoded : runDecoded .ret contentLength it
      { transfer := t, customHeaders := some custom, s := (⟨acc, []⟩ : TWire) } =
      (.ok (), it, { transfer := t, customHeaders := some custom, s := (⟨acc, []⟩ : TWire) }) := by
    unfold runDecoded
    split <;> rfl
  rw [f.sendAll_empty _ h, runEncoded_ok hdecoded]
  rfl

/-- `Run()` of a request that is not too long. -/
theorem run_static (m : THttpModule) (sm : TStaticModule)
    (fs : List UInt8 → Except String TRegularFile) {r : TRequest} (props : TRequestProperties)
    {req : TParsedHttpRequest} (hreq : r.request.fullLength ≤ m.maxReq)
    (hparse : TParsedHttpRequest.parse r.request.flatten = .ok req)
    (hopen : fs (sm.path req.request) = .ok f) {res : Except TException Unit} {output : TWire}
    (hrun : runEncoded (if props.chunkedTransfer then .chunked else .identity)
        (contextHeaders (m.keepAlive && props.keepAlive) props.chunkedTransfer)
        (f.sendAll 0 (TStaticModule.head (sm.file req.request))) props.contentLength it
        (⟨acc, []⟩ : TWire) =
      (res, it, output)) :
    m.run (sm.doRun fs) r props it (⟨acc, []⟩ : TWire) =
      (res.map fun _ => m.keepAlive && props.keepAlive, it, output) := by
  have hdo : sm.doRun fs r = f.sendAll 0 (TStaticModule.head (sm.file req.request)) := by
    simp only [TStaticModule.doRun, hparse, hopen]
  rw [THttpModule.run, if_neg (Nat.not_lt.2 hreq), hdo]
  simp only [hrun]

end Run

/-- `out` is one response for the file: its head, once, and the file as the body. -/
def Serves (file data : List UInt8) (keepAlive chunkedTransfer : Bool) (out : List UInt8) : Prop :=
  ∃ coded, out = builtHead (flatHead (okFile file)) (contextHeaders keepAlive chunkedTransfer) ++
    coded ∧
    Decodes (if chunkedTransfer then .chunked else .identity) coded data

/-- A file is served if it is not empty. -/
theorem serves_iff {σ : Type} [IIoInput σ] (m : THttpModule) (sm : TStaticModule)
    (fs : List UInt8 → Except String TRegularFile) (r : TRequest) (props : TRequestProperties)
    (it : TStreamIterator σ) (acc : List UInt8) {req : TParsedHttpRequest} {f : TRegularFile}
    (hreq : r.request.fullLength ≤ m.maxReq)
    (hparse : TParsedHttpRequest.parse r.request.flatten = .ok req)
    (hopen : fs (sm.path req.request) = .ok f) :
    (∃ keep it' out, m.run (sm.doRun fs) r props it (⟨acc, []⟩ : TWire) =
      (.ok keep, it', ⟨acc ++ out, []⟩) ∧
      Serves (sm.file req.request) f.data (m.keepAlive && props.keepAlive) props.chunkedTransfer
        out) ↔
      f.data ≠ [] := by
  by_cases hdata : f.data = []
  · rw [run_static it acc m sm fs props hreq hparse hopen (runEncoded_empty _ _ _ _ _ _ hdata)]
    refine iff_of_false ?_ (not_not.2 hdata)
    rintro ⟨keep, it', out, heq, -⟩
    cases heq
  · obtain ⟨coded, hrun, hdecodes⟩ := runEncoded_file (sm.file req.request)
      (if props.chunkedTransfer then .chunked else .identity)
      (contextHeaders (m.keepAlive && props.keepAlive) props.chunkedTransfer) props.contentLength it
        acc hdata
    rw [run_static it acc m sm fs props hreq hparse hopen hrun]
    exact iff_of_true ⟨_, _, _, rfl, coded, rfl, hdecodes⟩ hdata

/-- A file that `pread` gives in one piece. -/
def wholeFile (data : List UInt8) : TRegularFile where
  data := data
  portion := fun _ count => count
  portion_pos := fun _ _ h => h
  portion_le := fun _ _ => Nat.le_refl _

def wwwModule : TStaticModule where
  dir := ascii "www"
  dir_ne := by decide

def getRequest : TRequest where
  request := [ascii "GET /a HTTP/1.1"]

theorem parse_getRequest : TParsedHttpRequest.parse getRequest.request.flatten =
    .ok ⟨ascii "GET", ascii "/a", ascii "HTTP/1.1"⟩ := by decide

theorem serves_letter :
    ∃ keep it' out, ({} : THttpModule).run (wwwModule.doRun fun _ => .ok (wholeFile (ascii "A")))
      getRequest
        ⟨true, true, 0⟩ (⟨TNullStream.mk, []⟩ : TStreamIterator TNullStream) (⟨[], []⟩ : TWire) =
          (.ok keep, it', ⟨[] ++ out, []⟩) ∧
      Serves (ascii "/a") (ascii "A") true true out :=
  (serves_iff {} wwwModule (fun _ => .ok (wholeFile (ascii "A"))) getRequest ⟨true, true, 0⟩ _ []
    (f := wholeFile (ascii "A")) (by decide) parse_getRequest rfl).2 (List.cons_ne_nil _ _)

theorem serves_empty :
    ({} : THttpModule).run (wwwModule.doRun fun _ => .ok (wholeFile [])) getRequest
        ⟨true, true, 0⟩ (⟨TNullStream.mk, []⟩ : TStreamIterator TNullStream) (⟨[], []⟩ : TWire) =
      (.error (.httpError 500 "malformed http stream"), ⟨TNullStream.mk, []⟩, ⟨[], []⟩) :=
  run_static (f := wholeFile []) ⟨TNullStream.mk, []⟩ [] {} wwwModule (fun _ => .ok (wholeFile []))
    ⟨true, true, 0⟩
    (by decide) parse_getRequest rfl (runEncoded_empty _ _ _ _ _ _ rfl)

end Balancer
