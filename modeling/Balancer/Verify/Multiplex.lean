import Balancer.Theory.Framing
import Balancer.Verify.FrameWords
import Balancer.Verify.SocketOut

/-!
# The frames of all streams of a connection

`Logged` ties the bytes that a connection has queued to its calls of `Send`: they are the lists that
the calls have saved, in the order of the calls, and the calls have used the one `TDeflate` in that
order too. So the blocks of the `SYN_REPLY` frames are what successive calls of `Compress` returned
(`saveAll_replies`), and a peer whose `inflate` is in step with the stream reads the header texts
(`Peer.decodeAll_compressAll`). The frames can be told apart exactly if none has 2^24 bytes or more
after its header (`send_interleaved_iff`).
-/

namespace Balancer.Spdy

open BlockIO Runs TChunkList TDataFrame TDeflate
open Http11 (ascii)

/-! ### One frame -/

/-- The length of a frame by its header. -/
def announced (xs : List UInt8) : Nat := 8 + frameLength xs

theorem announced_inHead : Framing.InHead announced 8 := by
  intro xs ys h
  have h4 : 4 ≤ (xs.drop 4).length := by
    rw [List.length_drop]
    omega
  rw [announced, frameLength, field2, List.drop_append_of_le_length (by omega),
    List.take_append_of_le_length h4]
  rfl

/-- The block of a `SYN_REPLY` frame. -/
def replyBlock (xs : List UInt8) : Option (List UInt8) :=
  if IsControl xs SYN_REPLY then some (xs.drop 14) else none

section Words
variable {m n : Nat} {xs : List UInt8}

theorem field1_saveUi32 (hm : m < 2 ^ 32) : field1 (saveUi32 m ++ (saveUi32 n ++ xs)) = m := by
  rw [field1, List.take_left' (length_saveUi32 m), inetToHost_saveUi32, Nat.mod_eq_of_lt hm]

theorem field2_saveUi32 (hn : n < 2 ^ 32) : field2 (saveUi32 m ++ (saveUi32 n ++ xs)) = n := by
  rw [field2, List.drop_left' (length_saveUi32 m), List.take_left' (length_saveUi32 n),
    inetToHost_saveUi32, Nat.mod_eq_of_lt hn]

theorem length_words : (saveUi32 m ++ (saveUi32 n ++ xs)).length = 8 + xs.length := by
  rw [List.length_append, List.length_append, length_saveUi32, length_saveUi32, ← Nat.add_assoc]

/-- A frame announces its length, cut to 24 bits. -/
def Framed (xs : List UInt8) : Prop := ∃ n, xs.length = 8 + n ∧ frameLength xs = n % 2 ^ 24

theorem framed_words (hn : n < 2 ^ 32) (h : n % 2 ^ 24 = xs.length % 2 ^ 24) :
    Framed (saveUi32 m ++ (saveUi32 n ++ xs)) :=
  ⟨xs.length, length_words, by rw [frameLength, field2_saveUi32 hn, h]⟩

end Words

theorem Framed.announced_iff {xs : List UInt8} (h : Framed xs) :
    announced xs = xs.length ↔ xs.length < 8 + 2 ^ 24 := by
  obtain ⟨n, hlen, hn⟩ := h
  unfold announced
  omega

theorem TDataFrame.save_flatten (frame : TDataFrame) :
    frame.save.flatten = saveUi32 frame.field1 ++
      (saveUi32 (frame.data.flatten.length % 2 ^ 24 + frame.flags % 2 ^ 8 * 2 ^ 24) ++
        frame.data.flatten) := by
  rw [← fullLength_eq]
  unfold save
  simp only [List.cons_append, List.nil_append, List.flatten_cons, TDataFrame.field1,
    TDataFrame.field2, Nat.mod_mod]

theorem sendControl_flatten (type : Nat) (lst : TChunkList) :
    (sendControl type lst).flatten = saveUi32 (type % 2 ^ 16 + 2 * 2 ^ 16 + 2 ^ 31) ++
      (saveUi32 (lst.flatten.length % 2 ^ 24) ++ lst.flatten) := by
  rw [← fullLength_eq, sendControl, List.flatten_append, TControlFields.save, List.flatten_cons,
    List.flatten_singleton, List.append_assoc]
  unfold TControlFields.field1 TControlFields.field2 TControlFields.new
  simp only [Nat.mod_mod, Nat.zero_mod, Nat.zero_mul, Nat.add_zero, Bool.toNat_true, Nat.one_mul,
    Nat.mod_eq_of_lt (show 2 < 2 ^ 15 by decide)]

theorem TDataFrame.save_framed (frame : TDataFrame) : Framed frame.save.flatten := by
  rw [save_flatten]
  exact framed_words (by omega) (by omega)

theorem sendControl_framed (type : Nat) (lst : TChunkList) :
    Framed (sendControl type lst).flatten := by
  rw [sendControl_flatten]
  exact framed_words (by omega) (Nat.mod_mod ..)

theorem TDataFrame.replyBlock_save {frame : TDataFrame} (h : frame.isControl = false) :
    replyBlock frame.save.flatten = none := by
  refine if_neg fun hc => hc.1 ?_
  rw [save_flatten, field1_saveUi32 (field1_lt frame), field1, h]
  exact Nat.div_eq_of_lt (by simp only [Bool.toNat_false]; omega)

theorem replyBlock_sendControl {type : Nat} (lst : TChunkList) (htype : type < 2 ^ 16) :
    replyBlock (sendControl type lst).flatten =
      if type = SYN_REPLY then some (lst.flatten.drop 6) else none := by
  have hf := sendControl_flatten type lst
  have hcontrol : IsControl (sendControl type lst).flatten SYN_REPLY ↔ type = SYN_REPLY := by
    rw [IsControl, frameHeader, TControlHeader.ofFields, hf, field1_saveUi32 (by omega)]
    simp only
    omega
  simp only [replyBlock, hcontrol]
  rw [hf, ← List.append_assoc, show (14 : Nat) = 8 + 6 from rfl, ← List.drop_drop,
    List.drop_left' (by rw [List.length_append]; rfl)]

/-! ### Successive calls -/

/-- The bytes that a call has saved. -/
def okBytes : Except TException TChunkList → Option (List UInt8)
  | .ok lst => some lst.flatten
  | .error _ => none

section Calls
variable {ζ : Type} (Z : ZLib ζ)

/-- Successive calls of `Compress`. -/
def TDeflate.compressAll (d : TDeflate ζ) :
    List TChunkList → List (Except TException TChunkList) × TDeflate ζ
  | [] => ([], d)
  | lst :: lists =>
    let r := d.compress Z lst
    let rs := r.2.compressAll lists
    (r.1 :: rs.1, rs.2)

namespace TSend

/-- What successive frames are saved to. -/
def saveAll (d : TDeflate ζ) : List TSend → List (Except TException TChunkList) × TDeflate ζ
  | [] => ([], d)
  | frame :: frames =>
    let r := frame.save Z d
    let rs := saveAll r.2 frames
    (r.1 :: rs.1, rs.2)

/-- The text that a frame passes to `Compress`. -/
def text : TSend → Option TChunkList
  | synReply _ order headers => some (headerChunks order headers)
  | _ => none

variable {Z} {d : TDeflate ζ}

theorem saveAll_concat (d : TDeflate ζ) (frames : List TSend) (frame : TSend) :
    saveAll Z d (frames ++ [frame]) =
      ((saveAll Z d frames).1 ++ [(frame.save Z (saveAll Z d frames).2).1],
        (frame.save Z (saveAll Z d frames).2).2) := by
  induction frames generalizing d with
  | nil => rfl
  | cons f frames ih => simp only [List.cons_append, saveAll, ih]

theorem save_framed {frame : TSend} {lst : TChunkList} (h : (frame.save Z d).1 = .ok lst) :
    Framed lst.flatten := by
  cases frame with
  | data id data =>
    cases h
    exact TDataFrame.save_framed _
  | fin id =>
    cases h
    exact TDataFrame.save_framed _
  | rst id code =>
    cases h
    exact sendControl_framed ..
  | synReply id order headers =>
    rcases hc : d.compress Z (headerChunks order headers) with ⟨e | tmp, d'⟩
    · rw [save, hc] at h
      cases h
    · rw [save, hc] at h
      cases h
      exact sendControl_framed ..

/-- A frame with a text has the block that `Compress` returns. -/
theorem save_text {frame : TSend} {lst : TChunkList} (h : frame.text = some lst) :
    (frame.save Z d).2 = (d.compress Z lst).2 ∧
      (okBytes (frame.save Z d).1).bind replyBlock = okBytes (d.compress Z lst).1 ∧
      ((okBytes (frame.save Z d).1).isSome → (okBytes (d.compress Z lst).1).isSome) := by
  cases frame with
  | synReply id order headers =>
    cases h
    rw [save]
    rcases d.compress Z (headerChunks order headers) with ⟨e | tmp, d'⟩
    · exact ⟨rfl, rfl, fun h => h⟩
    · refine ⟨rfl, ?_, fun _ => rfl⟩
      show replyBlock (sendControl _ _).flatten = some tmp.flatten
      rw [replyBlock_sendControl _ (by decide), if_pos rfl]
      rfl
  | _ => cases h

/-- The other frames leave the `TDeflate` alone. -/
theorem save_of_text_eq_none {frame : TSend} (h : frame.text = none) :
    (frame.save Z d).2 = d ∧ (okBytes (frame.save Z d).1).bind replyBlock = none := by
  cases frame with
  | data id lst => exact ⟨rfl, replyBlock_save rfl⟩
  | fin id => exact ⟨rfl, replyBlock_save rfl⟩
  | rst id code =>
    refine ⟨rfl, (replyBlock_sendControl _ (by decide)).trans ?_⟩
    exact if_neg (by decide)
  | synReply id order headers => cases h

theorem saveAll_framed {frames : List TSend} {r : Except TException TChunkList} {x : List UInt8}
    (hr : r ∈ (saveAll Z d frames).1) (hx : okBytes r = some x) : Framed x := by
  induction frames generalizing d with
  | nil => cases hr
  | cons frame frames ih =>
    rcases List.mem_cons.1 hr with rfl | hr
    · cases hs : (frame.save Z d).1 with
      | error e =>
        rw [hs] at hx
        cases hx
      | ok lst =>
        rw [hs] at hx
        cases hx
        exact save_framed hs
    · exact ih hr

/-- If all frames are saved, no call of `Compress` throws. -/
theorem compressAll_ok {frames : List TSend}
    (h : ∀ r ∈ (saveAll Z d frames).1, (okBytes r).isSome) :
    ∀ r ∈ (d.compressAll Z (frames.filterMap text)).1, (okBytes r).isSome := by
  induction frames generalizing d with
  | nil => exact h
  | cons frame frames ih =>
    obtain ⟨hframe, hframes⟩ := List.forall_mem_cons.1 h
    cases ht : frame.text with
    | none =>
      rw [List.filterMap_cons_none ht]
      rw [(save_of_text_eq_none ht).1] at hframes
      exact ih hframes
    | some lst =>
      obtain ⟨hd, -, hok⟩ := save_text (Z := Z) (d := d) ht
      rw [List.filterMap_cons_some ht]
      rw [hd] at hframes
      exact List.forall_mem_cons.2 ⟨hok hframe, ih hframes⟩

/-- The blocks of the `SYN_REPLY` frames are what successive calls of `Compress` returned. -/
theorem saveAll_replies (d : TDeflate ζ) (frames : List TSend) :
    ((saveAll Z d frames).1.filterMap okBytes).filterMap replyBlock =
        (d.compressAll Z (frames.filterMap text)).1.filterMap okBytes ∧
      (saveAll Z d frames).2 = (d.compressAll Z (frames.filterMap text)).2 := by
  simp only [List.filterMap_filterMap]
  induction frames generalizing d with
  | nil => exact ⟨rfl, rfl⟩
  | cons frame frames ih =>
    cases ht : frame.text with
    | none =>
      obtain ⟨hd, hb⟩ := save_of_text_eq_none (Z := Z) (d := d) ht
      rw [List.filterMap_cons_none ht]
      simp only [saveAll, hd]
      rw [List.filterMap_cons, hb]
      exact ih d
    | some lst =>
      obtain ⟨hd, hb, -⟩ := save_text (Z := Z) (d := d) ht
      rw [List.filterMap_cons_some ht]
      simp only [saveAll, compressAll, hd]
      rw [List.filterMap_cons, List.filterMap_cons, hb, (ih _).1]
      exact ⟨rfl, (ih _).2⟩

end TSend

/-! ### Runs -/

/-- The call of `Send` that an event is. -/
def TOutEvent.call : TOutEvent → Option (Nat × TSend)
  | send c frame => some (c, frame)
  | _ => none

/-- The calls of a coroutine. -/
def TOutEvent.sentBy (c : Nat) : TOutEvent → Option TSend
  | send c' frame => if c' = c then some frame else none
  | _ => none

/-- The text that an event passes to `Compress`. -/
def TOutEvent.text : TOutEvent → Option TChunkList
  | send _ frame => frame.text
  | _ => none

namespace TProtoOut

/-- What was passed to the socket, frame by frame. -/
def frames (p : TProtoOut ζ) : List (List UInt8) := (p.calls.map TCall.saved).filterMap okBytes

/-- The state after events from a state with the fresh `TDeflate` `d`. -/
structure Logged (d : TDeflate ζ) (evs : List TOutEvent) (p : TProtoOut ζ) : Prop where
  calls : p.calls.map (fun x => (x.c, x.frame)) = evs.filterMap TOutEvent.call
  saved : TSend.saveAll Z d (p.calls.map TCall.frame) = (p.calls.map TCall.saved, p.deflate)
  wire : p.wire = p.frames.flatten

variable {Z} {d : TDeflate ζ} {evs : List TOutEvent} {p p' : TProtoOut ζ}

theorem logged_init (strm : ζ) (maxInQueue : Nat) : Logged Z ⟨strm, []⟩ [] (init strm maxInQueue) :=
  ⟨rfl, rfl, rfl⟩

theorem Logged.socketStep (h : Logged Z d evs p) {ev : TOutEvent} (hev : ev.call = none)
    (sev : TSocketEvent) (hsev : sev.passed = []) (hp : p.socketStep sev = some p') :
    Logged Z d (evs ++ [ev]) p' := by
  obtain ⟨r, hr, rfl⟩ := Option.map_eq_some_iff.1 hp
  have hwire := TSocketState.Consistent.step (show p.socket.Consistent p.wire from rfl) hr
  rw [hsev, List.append_nil] at hwire
  refine ⟨?_, h.saved, hwire.trans h.wire⟩
  rw [List.filterMap_append, List.filterMap_cons_none hev, List.filterMap_nil, List.append_nil]
  exact h.calls

/-- A call of `Send` queues the list that it has saved. -/
theorem send_cases {c : Nat} {frame : TSend} (hp : p.send Z c frame = some p') :
    p'.calls = p.calls ++ [⟨c, frame, (frame.save Z p.deflate).1⟩] ∧
      p'.deflate = (frame.save Z p.deflate).2 ∧
      p'.wire = p.wire ++ (okBytes (frame.save Z p.deflate).1).getD [] := by
  rcases hs : frame.save Z p.deflate with ⟨e | lst, d'⟩
  · rw [send, hs] at hp
    cases hp
    exact ⟨rfl, rfl, (List.append_nil _).symm⟩
  · rw [send, hs] at hp
    obtain ⟨r, hr, rfl⟩ := Option.map_eq_some_iff.1 hp
    exact ⟨rfl, rfl, TSocketState.Consistent.step (show p.socket.Consistent p.wire from rfl) hr⟩

theorem Logged.send (h : Logged Z d evs p) {c : Nat} {frame : TSend}
    (hp : p.send Z c frame = some p') : Logged Z d (evs ++ [.send c frame]) p' := by
  obtain ⟨hcalls, hdeflate, hwire⟩ := send_cases hp
  refine ⟨?_, ?_, ?_⟩
  · rw [hcalls, List.map_append, h.calls, List.filterMap_append]
    rfl
  · rw [hcalls, hdeflate, List.map_append, List.map_append, List.map_singleton,
      TSend.saveAll_concat, h.saved]
    rfl
  · rw [hwire, h.wire, frames, frames, hcalls, List.map_append, List.filterMap_append,
      List.flatten_append]
    cases (frame.save Z p.deflate).1 <;> simp [okBytes]

theorem Logged.step (h : Logged Z d evs p) {ev : TOutEvent} (hp : (system Z).step p ev = some p') :
    Logged Z d (evs ++ [ev]) p' := by
  cases ev with
  | send c frame =>
    simp only [system] at hp
    split at hp
    · exact h.send hp
    · cases hp
  | flush c => exact h.socketStep rfl (.flush c) rfl hp
  | resume c keep => exact h.socketStep rfl (.resume c keep) rfl hp
  | onPollEvent status wr => exact h.socketStep rfl (.onPollEvent status wr) rfl hp

theorem logged_run {strm : ζ} {maxInQueue : Nat}
    (hrun : (system Z).run (init strm maxInQueue) evs = some p) : Logged Z ⟨strm, []⟩ evs p := by
  induction evs using List.reverseRecOn generalizing p with
  | nil =>
    cases hrun
    exact logged_init strm maxInQueue
  | append_singleton evs ev ih =>
    rw [System.run_concat] at hrun
    obtain ⟨p₁, h₁, hstep⟩ := Option.bind_eq_some_iff.1 hrun
    exact (ih h₁).step hstep

namespace Logged

/-- The calls of a coroutine are logged in the order in which it makes them. -/
theorem calls_of (h : Logged Z d evs p) (c : Nat) :
    (p.calls.filter fun x => x.c = c).map TCall.frame = evs.filterMap (·.sentBy c) := by
  have hlog :=
    congrArg (List.filterMap fun x : Nat × TSend => if x.1 = c then some x.2 else none) h.calls
  rw [List.filterMap_map, List.filterMap_filterMap] at hlog
  have hcalls : (p.calls.filter fun x => x.c = c).map TCall.frame =
      p.calls.filterMap fun x => if x.c = c then some x.frame else none := by
    rw [← List.filterMap_eq_filter, List.map_filterMap]
    refine List.filterMap_congr fun x _ => ?_
    by_cases hx : x.c = c <;> simp [Option.guard, hx]
  refine hcalls.trans (hlog.trans (List.filterMap_congr fun ev _ => ?_))
  cases ev <;> rfl

theorem texts (h : Logged Z d evs p) :
    (p.calls.map TCall.frame).filterMap TSend.text = evs.filterMap TOutEvent.text := by
  have hlog := congrArg (List.filterMap fun x : Nat × TSend => x.2.text) h.calls
  rw [List.filterMap_map, List.filterMap_filterMap] at hlog
  rw [List.filterMap_map]
  refine hlog.trans (List.filterMap_congr fun ev _ => ?_)
  cases ev <;> rfl

theorem frames_framed (h : Logged Z d evs p) : ∀ x ∈ p.frames, Framed x := by
  intro x hx
  obtain ⟨r, hr, hrx⟩ := List.mem_filterMap.1 hx
  have hsaved : (TSend.saveAll Z d _).1 = p.calls.map TCall.saved := congrArg Prod.fst h.saved
  rw [← hsaved] at hr
  exact TSend.saveAll_framed hr hrx

theorem split_wire_iff (h : Logged Z d evs p) :
    Framing.split announced p.wire = some p.frames ↔ ∀ x ∈ p.frames, x.length < 8 + 2 ^ 24 := by
  have hframed := h.frames_framed
  rw [h.wire, Framing.split_flatten_iff announced_inHead (by decide)]
  · exact forall₂_congr fun x hx => (hframed x hx).announced_iff
  · intro x hx
    obtain ⟨n, hn, -⟩ := hframed x hx
    omega

theorem replies (h : Logged Z d evs p) :
    p.frames.filterMap replyBlock =
      (d.compressAll Z (evs.filterMap TOutEvent.text)).1.filterMap okBytes := by
  have := (TSend.saveAll_replies (Z := Z) d (p.calls.map TCall.frame)).1
  rwa [h.saved, h.texts] at this

end Logged

end TProtoOut

/-! ### The peer -/

/-- An `inflate` for the streams of a `deflate`. `Sync strm i held` says that it is in step with a
stream: it has read all that the stream has written, and `held` is the text that the stream has
taken and not yet written. A call that does not fill its output has taken the input, and has written
the text if it flushes; and what is written of a block is less than the chunk that is allocated for
it. -/
structure Peer (Z : ZLib ζ) (ι : Type) where
  inflate : List UInt8 → ι → List UInt8 × ι
  inflate_nil : ∀ i, inflate [] i = ([], i)
  inflate_append : ∀ xs ys i, inflate (xs ++ ys) i =
    ((inflate xs i).1 ++ (inflate ys (inflate xs i).2).1, (inflate ys (inflate xs i).2).2)
  Sync : ζ → ι → List UInt8 → Prop
  deflate_sync : ∀ flush room input strm i held r, Sync strm i held →
    Z.deflate flush room input strm = r →
    r.rv = Z_OK → ∃ held', (inflate r.out i).1 ++ held' ++ r.rest = held ++ input ∧
      Sync r.strm (inflate r.out i).2 held' ∧
      (r.out.length < room → r.rest = [] ∧ (flush = .syncFlush → held' = []))
  availOut_lt : ∀ lst out i (d d' : TDeflate ζ), Sync d.strm i [] → d.input = [] →
    fullLength lst < 2 ^ 31 → d.compress Z lst = (.ok out, d') →
    out.flatten.length < Z.availOut d.strm lst.fullLength

theorem TDeflate.deflateChunks_isPrefix {room : Nat} {lst : TChunkList} {out out' : List UInt8}
    {d d' : TDeflate ζ} (h : deflateChunks Z room lst out d = (.ok out', d')) : out <+: out' := by
  induction lst generalizing out d with
  | nil =>
    cases h
    exact List.prefix_rfl
  | cons c lst ih =>
    rw [deflateChunks] at h
    split at h
    · cases h
    · exact (List.prefix_append ..).trans (ih h)

/-- `Compress` returns after the loop and a flush. -/
theorem TDeflate.compress_ok {lst out : TChunkList} {d d' : TDeflate ζ}
    (h : d.compress Z lst = (.ok out, d')) :
    ∃ out₁ d₁ r, d.deflateChunks Z (Z.availOut d.strm lst.fullLength) lst [] = (.ok out₁, d₁) ∧
      Z.deflate .syncFlush (Z.availOut d.strm lst.fullLength - out₁.length) d₁.input d₁.strm = r ∧
      r.rv = Z_OK ∧ out = [out₁ ++ r.out] ∧ d' = ⟨r.strm, r.rest⟩ := by
  simp only [compress] at h
  split at h
  · cases h
  · next out₁ d₁ hc =>
    split at h
    · cases h
    · next hok =>
      cases h
      exact ⟨out₁, d₁, _, hc, rfl, not_not.1 hok, rfl, rfl⟩

namespace Peer

variable {Z} {ι : Type} (P : Peer Z ι) {d d' : TDeflate ζ} {i : ι}

/-- The texts of successive blocks. -/
def decodeAll (i : ι) : List (List UInt8) → List (List UInt8)
  | [] => []
  | block :: blocks => (P.inflate block i).1 :: decodeAll (P.inflate block i).2 blocks

/-- The loop of `Compress` on a stream in step. -/
theorem deflateChunks_sync {room : Nat} {lst : TChunkList} {out out' held : List UInt8}
    (h : d.deflateChunks Z room lst out = (.ok out', d')) (hs : P.Sync d.strm i held)
    (hin : d.input = []) (hlst : ∀ c ∈ lst, c.length < 2 ^ 32) (hroom : out'.length < room) :
    ∃ new held', out' = out ++ new ∧ (P.inflate new i).1 ++ held' = held ++ lst.flatten ∧
      P.Sync d'.strm (P.inflate new i).2 held' ∧ d'.input = [] := by
  induction lst generalizing out d i held with
  | nil =>
    cases h
    refine ⟨[], held, (List.append_nil _).symm, ?_, ?_, hin⟩
    · rw [P.inflate_nil, List.flatten_nil, List.append_nil, List.nil_append]
    · rwa [P.inflate_nil]
  | cons c lst ih =>
    obtain ⟨hc, hlst⟩ := List.forall_mem_cons.1 hlst
    rw [deflateChunks, Nat.mod_eq_of_lt hc, List.take_length] at h
    generalize hr : Z.deflate .noFlush (room - out.length) c d.strm = r at h
    split at h
    · cases h
    · next hok =>
      obtain ⟨held₁, htext, hsync, hfull⟩ := P.deflate_sync _ _ _ _ i held r hs hr (not_not.1 hok)
      have hle := (deflateChunks_isPrefix Z h).length_le
      rw [List.length_append] at hle
      have hrest := (hfull (by omega)).1
      obtain ⟨new, held', rfl, htext', hsync', hin'⟩ := ih h hsync hrest hlst
      rw [hrest, List.append_nil] at htext
      refine ⟨r.out ++ new, held', List.append_assoc .., ?_, ?_, hin'⟩
      · rw [P.inflate_append, List.append_assoc, htext', ← List.append_assoc, htext,
          List.append_assoc, List.flatten_cons]
      · rwa [P.inflate_append]

/-- A block in step is read as its text. -/
theorem compress_sync {lst out : TChunkList} (h : d.compress Z lst = (.ok out, d'))
    (hs : P.Sync d.strm i []) (hin : d.input = []) (hlst : lst.fullLength < 2 ^ 31) :
    (P.inflate out.flatten i).1 = lst.flatten ∧ P.Sync d'.strm (P.inflate out.flatten i).2 [] ∧
      d'.input = [] := by
  have hlt := P.availOut_lt lst out i d d' hs hin hlst h
  have hchunks : ∀ c ∈ lst, c.length < 2 ^ 32 := by
    intro c hc
    have hle := (List.sublist_flatten_of_mem hc).length_le
    rw [← fullLength_eq] at hle
    omega
  obtain ⟨out₁, d₁, r, hc, hr, hok, rfl, rfl⟩ := compress_ok Z h
  rw [List.flatten_singleton] at hlt ⊢
  rw [List.length_append] at hlt
  obtain ⟨new, held, rfl, htext, hsync, hin₁⟩ := P.deflateChunks_sync hc hs hin hchunks (by omega)
  rw [hin₁] at hr
  obtain ⟨held', htext', hsync', hfull⟩ := P.deflate_sync _ _ _ _ _ _ r hsync hr hok
  obtain ⟨hrest, hheld⟩ := hfull (by omega)
  cases hheld rfl
  rw [hrest, List.append_nil, List.append_nil, List.append_nil] at htext'
  rw [P.inflate_append, htext', htext, List.nil_append]
  exact ⟨rfl, hsync', hrest⟩

/-- Successive blocks in step are read as their texts. -/
theorem decodeAll_compressAll {texts : List TChunkList} (hs : P.Sync d.strm i [])
    (hin : d.input = []) (hok : ∀ r ∈ (d.compressAll Z texts).1, (okBytes r).isSome)
    (htexts : ∀ lst ∈ texts, fullLength lst < 2 ^ 31) :
    P.decodeAll i ((d.compressAll Z texts).1.filterMap okBytes) = texts.map List.flatten := by
  induction texts generalizing d i with
  | nil => rfl
  | cons lst texts ih =>
    obtain ⟨hhead, hok⟩ := List.forall_mem_cons.1 hok
    obtain ⟨hlst, htexts⟩ := List.forall_mem_cons.1 htexts
    simp only [compressAll] at hok ⊢
    rcases hc : d.compress Z lst with ⟨e | out, d'⟩
    · rw [hc] at hhead
      cases hhead
    · obtain ⟨htext, hs', hin'⟩ := P.compress_sync hc hs hin hlst
      rw [hc] at hok
      rw [List.filterMap_cons]
      simp only [okBytes, decodeAll]
      rw [htext, ih hs' hin' hok htexts, List.map_cons]

end Peer

/-- In every run of the streams of a connection the bytes queued for the socket are the lists that
the calls of `Send` have saved, in the order of the calls, in which the calls of each coroutine have
the order in which it makes them. The frames are told apart by their headers exactly if each has
less than 2^24 bytes after its header. The blocks of the `SYN_REPLY` frames are what successive
calls of `Compress` returned; if no call throws, and the texts are short enough for the counters of
zlib, a peer in step reads the texts, in order. -/
theorem send_interleaved_iff (Z : ZLib ζ) (strm : ζ) (maxInQueue : Nat) (evs : List TOutEvent)
    (p : TProtoOut ζ) (hrun : (TProtoOut.system Z).run (.init strm maxInQueue) evs = some p) :
    p.wire = p.frames.flatten ∧
    (Framing.split announced p.wire = some p.frames ↔ ∀ x ∈ p.frames, x.length < 8 + 2 ^ 24) ∧
    (∀ c, (p.calls.filter fun x => x.c = c).map TCall.frame = evs.filterMap (·.sentBy c)) ∧
    p.frames.filterMap replyBlock =
      (compressAll Z ⟨strm, []⟩ (evs.filterMap TOutEvent.text)).1.filterMap okBytes ∧
    ∀ (ι : Type) (P : Peer Z ι) (i : ι), P.Sync strm i [] →
    (∀ x ∈ p.calls, (okBytes x.saved).isSome) →
      (∀ lst ∈ evs.filterMap TOutEvent.text, fullLength lst < 2 ^ 31) →
      P.decodeAll i (p.frames.filterMap replyBlock) =
        (evs.filterMap TOutEvent.text).map List.flatten := by
  have h := TProtoOut.logged_run hrun
  refine ⟨h.wire, h.split_wire_iff, h.calls_of, h.replies, fun ι P i hs hok htexts => ?_⟩
  have hsaved : ∀ r ∈ (TSend.saveAll Z ⟨strm, []⟩ (p.calls.map TCall.frame)).1,
      (okBytes r).isSome := by
    rw [h.saved]
    exact List.forall_mem_map.2 hok
  have hcompress := TSend.compressAll_ok hsaved
  rw [h.texts] at hcompress
  rw [h.replies]
  exact P.decodeAll_compressAll hs rfl hcompress htexts

end Calls

/-! ### A library that stores its input -/

/-- A `deflate` that copies its input. -/
def storedLib : ZLib Unit where
  availOut _ len := len + 1
  deflate _ room input _ := ⟨Z_OK, input.take room, input.drop room, ()⟩

theorem storedLib_deflateChunks {room : Nat} {lst : TChunkList} {out out' : List UInt8}
    {d d' : TDeflate Unit} (h : d.deflateChunks storedLib room lst out = (.ok out', d')) :
    out'.length + d'.input.length ≤ out.length + d.input.length + lst.fullLength := by
  induction lst generalizing out d with
  | nil =>
    cases h
    exact Nat.le_add_right ..
  | cons c lst ih =>
    have hle := ih h
    simp only [storedLib, List.length_append, List.length_take, List.length_drop] at hle
    rw [fullLength_eq] at hle ⊢
    rw [List.flatten_cons, List.length_append]
    omega

theorem storedLib_availOut_lt {lst out : TChunkList} {d d' : TDeflate Unit} (hin : d.input = [])
    (h : d.compress storedLib lst = (.ok out, d')) :
    out.flatten.length < storedLib.availOut d.strm lst.fullLength := by
  obtain ⟨out₁, d₁, r, hc, rfl, -, rfl, -⟩ := compress_ok storedLib h
  have hle := storedLib_deflateChunks hc
  rw [hin] at hle
  simp only [storedLib, List.flatten_singleton, List.length_append, List.length_take,
    List.length_nil] at hle ⊢
  omega

theorem storedLib_sync {flush : ZFlush} {room : Nat} {input held : List UInt8} {r : ZResult Unit}
    (hheld : held = []) (hr : storedLib.deflate flush room input () = r) :
    ∃ held', r.out ++ held' ++ r.rest = held ++ input ∧ held' = [] ∧
      (r.out.length < room → r.rest = [] ∧ (flush = .syncFlush → held' = [])) := by
  subst hheld hr
  refine ⟨[], ?_, rfl, fun hlt => ⟨?_, fun _ => rfl⟩⟩
  · rw [List.append_nil]
    exact List.take_append_drop ..
  · simp only [storedLib, List.length_take] at hlt
    exact List.drop_eq_nil_of_le (by omega)

/-- The peer of `storedLib` takes its input as it is. -/
def storedPeer : Peer storedLib Unit where
  inflate xs i := (xs, i)
  inflate_nil _ := rfl
  inflate_append _ _ _ := rfl
  Sync _ _ held := held = []
  deflate_sync _ _ _ _ _ _ _ hs hr _ := storedLib_sync hs hr
  availOut_lt _ _ _ _ _ _ hin _ h := storedLib_availOut_lt hin h

/-- Two streams: the headers of one, data of the other while the socket takes a part, and the end of
the first. -/
theorem send_interleaved_two :
    ∃ p, (TProtoOut.system storedLib).run (.init () 1000)
        [.send 1 (.synReply 1 .rightToLeft ⟨[ascii "HTTP/1.1 200 OK"], []⟩),
          .onPollEvent 0 (.written 3), .send 2 (.data 3 [[7], [8]]), .send 1 (.fin 1)] = some p ∧
      Framing.split announced p.wire = some p.frames ∧
      storedPeer.decodeAll () (p.frames.filterMap replyBlock) =
        [(headerChunks .rightToLeft ⟨[ascii "HTTP/1.1 200 OK"], []⟩).flatten] := by
  have hrun : ((TProtoOut.system storedLib).run (.init () 1000)
      [.send 1 (.synReply 1 .rightToLeft ⟨[ascii "HTTP/1.1 200 OK"], []⟩),
        .onPollEvent 0 (.written 3), .send 2 (.data 3 [[7], [8]]),
        .send 1 (.fin 1)]).map (fun p =>
          decide ((∀ x ∈ p.frames, x.length < 8 + 2 ^ 24) ∧
            ∀ x ∈ p.calls, (okBytes x.saved).isSome)) = some true := by
    decide +kernel
  obtain ⟨p, hrun, hp⟩ := Option.map_eq_some_iff.1 hrun
  obtain ⟨hframes, hcalls⟩ := of_decide_eq_true hp
  obtain ⟨-, hsplit, -, -, hdecode⟩ := send_interleaved_iff storedLib () 1000 _ p hrun
  exact ⟨p, hrun, hsplit.2 hframes, hdecode Unit storedPeer () rfl hcalls (by decide +kernel)⟩

/-- A `DATA` frame that is too long by one byte announces none. -/
theorem run_data_truncated {c : TChunk} (hc : c.length = 2 ^ 24) :
    ∃ p, (TProtoOut.system storedLib).run (.init () 0) [.send 0 (.data 1 [c])] = some p ∧
      p.wire.length = 8 + 2 ^ 24 ∧ announced p.wire = 8 ∧
      Framing.split announced p.wire ≠ some p.frames := by
  obtain ⟨p, hrun, hframes⟩ : ∃ p,
      (TProtoOut.system storedLib).run (.init () 0) [.send 0 (.data 1 [c])] = some p ∧
      p.frames = [(TDataFrame.new 1 [c]).save.flatten] := ⟨_, rfl, rfl⟩
  have h := TProtoOut.logged_run hrun
  have hwire : p.wire = (TDataFrame.new 1 [c]).save.flatten := by
    rw [h.wire, hframes, List.flatten_singleton]
  have hlen : p.wire.length = 8 + 2 ^ 24 := by
    rw [hwire, save_flatten, length_words, TDataFrame.new, List.flatten_singleton, hc]
  refine ⟨p, hrun, hlen, ?_, ?_⟩
  · obtain ⟨n, hn, hframe⟩ := save_framed (.new 1 [c])
    rw [← hwire] at hn hframe
    rw [announced, hframe]
    omega
  · rw [Ne, h.split_wire_iff, hframes, List.forall_mem_singleton, ← hwire, hlen]
    exact Nat.lt_irrefl _

/-- A `DATA` frame with 2^24 bytes. -/
theorem send_interleaved_truncated :
    ∃ p, (TProtoOut.system storedLib).run (.init () 0)
      [.send 0 (.data 1 [List.replicate (2 ^ 24) 0])] = some p ∧
      p.wire.length = 8 + 2 ^ 24 ∧ announced p.wire = 8 ∧
      Framing.split announced p.wire ≠ some p.frames :=
  run_data_truncated List.length_replicate

end Balancer.Spdy
