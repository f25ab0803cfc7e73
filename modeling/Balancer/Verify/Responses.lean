import Balancer.Verify.Pipeline
import Balancer.Verify.Relay

/-!
# Responses on one connection

What the http module writes to a kept connection is one response after the other (`loop_output`),
each of them with a chunked body and its last chunk, whatever was asked for and whatever the status
is. A client that goes by the rules for the length of a message reads the responses of the inner
module exactly when every exchange leaves it in step (`responses_read_iff`).
-/

namespace Balancer

open BlockIO ParseHttpRequest THttpModule
open Http11 hiding COLON CR HT LF SP

/-! ### Exchanges -/

/-- A behaviour that returns after it has sent `ls`, when its `Input` is empty and every `Send` is
accepted. -/
inductive Answers : TBehaviour → List TChunkList → Prop
  | ret : Answers .ret []
  | recv {k : Except TException TChunkList → TBehaviour} {ls : List TChunkList} :
    Answers (k (.ok [])) ls → Answers (.recv k) ls
  | send {l : TChunkList} {k : Except TException Unit → TBehaviour} {ls : List TChunkList} :
    Answers (k (.ok ())) ls → Answers (.send l k) (l :: ls)

/-- A request without a body on a kept connection, and the complete response that the inner module
gives to it, cut into the lists of its sends in any way. -/
structure Exchange where
  request : Head
  http11 : ascii "HTTP/1.1" <:+ request.start
  bodiless : framing request.view = some .unframed ∨ framing request.view = some (.length 0)
  response : Head
  status : ascii "HTTP/" <+: response.start
  body : List UInt8
  behaviour : TBehaviour
  sends : List TChunkList
  answers : Answers behaviour sends
  complete : bytesOf sends = response.encode ++ body

namespace Exchange

def isHead (e : Exchange) : Bool := e.request.start.takeWhile (· != Http11.SP) == ascii "HEAD"

/-- No body follows the fields of the response. -/
def noBody (e : Exchange) : Bool := e.isHead || noBodyStatus e.response.start

/-- The response as the client is to read it. -/
def message (e : Exchange) : Http11.Message where
  start := e.response.start
  fields := e.response.view ++ [(transferChunked.name, transferChunked.value)]
  body := if e.noBody then [] else e.body

/-- What is written for the response. -/
def written (e : Exchange) : List UInt8 :=
  builtHead (flatHead e.response) (contextHeaders true true) ++
    (encodeParts .chunked (dataParts e.sends) ++ TTransfer.chunked.onFinish.flatten)

/-- The exchange leaves the client where the next response starts: a body follows the fields, every
list that is passed to `OnDataPart` has data, and no value starts with a colon, which the parser
would take for a part of the delimiter. -/
structure InStep (e : Exchange) : Prop where
  has_body : e.noBody = false
  parts : ∀ l ∈ dataParts e.sends, HasData l
  values : ∀ f ∈ e.response.fields, Http11.COLON ∉ f.value.head?

theorem dataParts_bytes (e : Exchange) : bytesOf (dataParts e.sends) = e.body := by
  obtain ⟨parts, hs, hb⟩ := EncoderState.sent_complete e.complete
  rw [dataParts, hs, hb]

end Exchange

/-! ### What is written -/

theorem Answers.run {p : TBehaviour} {ls : List TChunkList} (H : Answers p ls) {t : TTransfer}
    {custom : TChunkList} {acc : List UInt8} {ls₀ : List TChunkList} {enc : THttpEncoder TWire}
    (he : EncoderState t custom acc ls₀ enc)
    (hne : ({} : FlatState).run (bytesOf (ls₀ ++ ls)) ≠ .error) :
    ∃ enc', p.run TNullStream.mk enc = (.ok (), TNullStream.mk, enc') ∧
      EncoderState t custom acc (ls₀ ++ ls) enc' := by
  induction H generalizing ls₀ enc with
  | ret => exact ⟨enc, rfl, by rwa [List.append_nil]⟩
  | recv _ ih => exact ih he hne
  | @send l k ls _ ih =>
    have hcons : ls₀ ++ l :: ls = ls₀ ++ [l] ++ ls := by simp
    obtain ⟨enc₁, hs, he₁⟩ := he.send_cons hne
    rw [hcons] at hne ⊢
    obtain ⟨enc₂, hr, he₂⟩ := ih he₁ hne
    refine ⟨enc₂, ?_, he₂⟩
    simp only [Prog.run, hs]
    exact hr

section Run

variable {σ : Type} [IIoInput σ] {it it' : TStreamIterator σ}

theorem Exchange.runEncoded (e : Exchange) (t : TTransfer) (custom : TChunkList) (acc : List UInt8)
    (it : TStreamIterator σ) :
    runEncoded t custom e.behaviour 0 it (⟨acc, []⟩ : TWire) =
      (.ok (), it, ⟨acc ++ builtHead (flatHead e.response) custom ++
        encodeParts t (dataParts e.sends) ++ t.onFinish.flatten, []⟩) := by
  have hrun : ({} : FlatState).run (bytesOf e.sends) = .done (flatHead e.response) e.body := by
    rw [e.complete, FlatState.run_encode]
  obtain ⟨enc, hr, he⟩ := e.answers.run (EncoderState.init t custom acc)
    (by rw [List.nil_append, hrun]; simp)
  rw [List.nil_append] at he
  have hd : runDecoded e.behaviour 0 it
      { transfer := t, customHeaders := some custom, s := (⟨acc, []⟩ : TWire) } =
        (.ok (), it, enc) := by
    simp [runDecoded, hr]
  obtain ⟨parts, hs, -, hb⟩ := he.body_of_done hrun
  obtain ⟨enc', hf, hw⟩ := hb.finish
  rw [runEncoded_ok hd, hf, hw, dataParts, hs]

/-- A context for a request of the connection. -/
theorem Exchange.run (e : Exchange) {m : THttpModule} (hka : m.keepAlive = true) {r : TRequest}
    (hp : parsedRequest m.maxLen it = (.ok r, it')) (hflat : r.flat = flatHead e.request)
    (hreq : e.request.start.length ≤ m.maxReq) (hlen : (flatHead e.request).contentLength = 0)
    (acc : List UInt8) :
    m.run (fun _ => e.behaviour) r.requestProperties.2 r.requestProperties.1 it'
      (⟨acc, []⟩ : TWire) = (.ok true, it', ⟨acc ++ e.written, []⟩) := by
  obtain ⟨line, hline⟩ := e.http11
  have hlast : r.flat.request = (line ++ ascii "HTTP/1.") ++ [49] := by
    rw [hflat, List.append_assoc]
    exact hline.symm
  obtain ⟨hkeep, hchunked⟩ := parsedRequest_version hp hlast (by decide)
  have hcl : r.requestProperties.1.contentLength = 0 := by
    rw [← hlen, ← hflat]
    exact congrArg TResponseProperties.contentLength (responseProperties_flat r).1
  have hfull : ¬r.requestProperties.2.request.fullLength > m.maxReq := by
    have : r.requestProperties.2.request.fullLength = (flatHead e.request).request.length := by
      rw [TChunkList.fullLength_eq, ← hflat]
      rfl
    rw [this]
    exact Nat.not_lt_of_le hreq
  rw [THttpModule.run, if_neg hfull]
  simp only [hka, hkeep, hchunked, hcl, Bool.and_self, if_true, e.runEncoded]
  simp [Exchange.written, Except.map]

/-- The responses are written one after the other. -/
theorem THttpModule.loop_output {m : THttpModule} (hka : m.keepAlive = true) {xs : List Exchange}
    {f : Option TException}
    (hmax : m.maxLen = 0 ∨ (xs.flatMap fun e => e.request.encode).length < m.maxLen)
    (hreq : ∀ e ∈ xs, e.request.start.length ≤ m.maxReq)
    (hlen : ∀ e ∈ xs, (flatHead e.request).contentLength = 0)
    (H : it.Holds (xs.flatMap fun e => e.request.encode) f) (acc : List UInt8) :
    (m.loop (xs.map fun e _ => e.behaviour) it (⟨acc, []⟩ : TWire)).output =
      ⟨acc ++ xs.flatMap Exchange.written, []⟩ := by
  induction xs generalizing it acc with
  | nil =>
    rw [(loop_nil m H _ _).2]
    simp
  | cons e xs ih =>
    rw [List.flatMap_cons] at hmax H
    obtain ⟨it₁, hp, H₁⟩ := peek_holds H (by simp [Head.encode, crlf])
    obtain ⟨r, it₂, hr, hflat, H₂⟩ := parsedRequest_encode H₁ hmax
    have hrun :=
      e.run hka hr hflat (hreq e (List.mem_cons_self ..)) (hlen e (List.mem_cons_self ..)) acc
    have hmax' : m.maxLen = 0 ∨ (xs.flatMap fun e => e.request.encode).length < m.maxLen := by
      refine hmax.imp_right fun h => ?_
      rw [List.length_append] at h
      omega
    have hnext := ih hmax' (List.forall_mem_cons.1 hreq).2
      (List.forall_mem_cons.1 hlen).2 H₂ (acc ++ e.written)
    rw [List.map_cons]
    rcases loop_cases m (fun _ => e.behaviour) (xs.map fun e _ => e.behaviour) hp hr
      (⟨acc, []⟩ : TWire) with ⟨res, it', out, hrun', hres, -⟩ | ⟨it', out, hrun', -, hout⟩
    · rw [hrun] at hrun'
      cases hrun'
      exact absurd rfl hres
    · rw [hrun] at hrun'
      cases hrun'
      rw [hout, hnext, List.flatMap_cons, List.append_assoc]

end Run

/-! ### What the client reads -/

/-- The custom field is the last one, so it decides how the body is framed. -/
theorem framing_transferChunked (fs : List (List UInt8 × List UInt8)) :
    framing (fs ++ [(transferChunked.name, transferChunked.value)]) = some .chunked := by
  have hlast : valuesOf transferEncoding [(transferChunked.name, transferChunked.value)] =
      [transferChunked.value] := by decide
  have hname : Http11.SameName (lastElement transferChunked.value) chunkedName := by decide
  rw [framing, valuesOf_append, hlast, List.getLast?_concat]
  simp [hname]

theorem isHdelim_iff (b : UInt8) : isHdelim b = true ↔ isBlank b = true ∨ b = Http11.COLON := by
  simp only [isHdelim, isBlank, Bool.or_eq_true, beq_iff_eq]
  rfl

/-- The parser keeps a value up to the blanks around it, unless it starts with a colon. -/
theorem trim_dropWhile_isHdelim (raw : List UInt8) :
    trim (raw.dropWhile isHdelim) = trim raw ↔ Http11.COLON ∉ (trim raw).head? := by
  induction raw with
  | nil => simp [trim]
  | cons b raw ih =>
    by_cases hb : isBlank b = true
    · rw [List.dropWhile_cons_of_pos ((isHdelim_iff b).2 (.inl hb)), trim_cons_blank hb]
      exact ih
    · have hhead : (trim (b :: raw)).head? = some b := by
        rw [trim_head?, List.dropWhile_cons_of_neg hb]
        rfl
      by_cases hc : b = Http11.COLON
      · subst hc
        refine iff_of_false (fun h => ?_) (by simp [hhead])
        -- what is left of the value does not start with a colon
        rw [← h, trim_head?] at hhead
        have hne : ∀ c ∈ ((Http11.COLON :: raw).dropWhile isHdelim).head?, isHdelim c = false :=
          dropWhile_head
        rcases hd : (Http11.COLON :: raw).dropWhile isHdelim with _ | ⟨c, cs⟩
        · rw [hd] at hhead
          cases hhead
        · have hcd := hne c (by rw [hd]; rfl)
          have hcb : ¬isBlank c = true := fun h' => by
            rw [(isHdelim_iff c).2 (.inl h')] at hcd
            cases hcd
          rw [hd, List.dropWhile_cons_of_neg hcb] at hhead
          cases hhead
          cases hcd
      · have hd : ¬isHdelim b = true := fun h => ((isHdelim_iff b).1 h).elim hb hc
        rw [List.dropWhile_cons_of_neg hd, hhead]
        exact iff_of_true rfl fun h => hc (Option.some.inj h)

/-- A client that is at a size line does not read the responses that follow. -/
theorem readResponses_ne {b : UInt8} (hb : isHexDigit b = true) (xs : List UInt8)
    (es : List Exchange) :
    readResponses (es.map Exchange.isHead) (b :: xs) ≠ some (es.map Exchange.message) := by
  intro h
  cases es with
  | nil => simp [readResponses] at h
  | cons e es =>
    have hstart := readResponses_start (isHexDigit_isText hb) h
    obtain ⟨ys, hys⟩ := e.status
    have hH : e.message.start.head? = some 72 := by
      change e.response.start.head? = some 72
      rw [← hys]
      rfl
    rw [hH] at hstart
    cases hstart
    cases hb

/-- The fields of a response as they are read, and as the inner module gave them. -/
theorem Exchange.fields_eq_iff (e : Exchange) :
    (flatHead e.response).headers.map (fun h => (h.1, trim h.2)) = e.response.view ↔
      ∀ f ∈ e.response.fields, Http11.COLON ∉ f.value.head? := by
  rw [flatHead, Head.view, List.map_map, List.map_inj_left]
  refine forall₂_congr fun f _ => ?_
  rw [← show trim f.raw = f.value from rfl, ← trim_dropWhile_isHdelim]
  simp

/-- One response, whatever follows it: the client reads it as the inner module gave it and is at
what follows, or it does not read what follows. -/
theorem Exchange.readResponses_iff (e : Exchange) (es : List Exchange) (rest : List UInt8) :
    readResponses ((e :: es).map Exchange.isHead) (e.written ++ rest) =
        some ((e :: es).map Exchange.message) ↔
      e.InStep ∧ readResponses (es.map Exchange.isHead) rest = some (es.map Exchange.message) := by
  let fs := (flatHead e.response).headers.map (fun h => (h.1, trim h.2)) ++
    [(transferChunked.name, transferChunked.value)]
  let tail := encodeParts .chunked (dataParts e.sends) ++ TTransfer.chunked.onFinish.flatten ++ rest
  have hread : readHead (e.written ++ rest) = some (e.response.start, fs, tail) := by
    have := readHead_builtHead (flatHead_wf e.response) (contextHeaders_flatten true true) tail
    rw [Exchange.written, List.append_assoc]
    exact this
  have hfs : fs = e.message.fields ↔ ∀ f ∈ e.response.fields, Http11.COLON ∉ f.value.head? := by
    rw [← e.fields_eq_iff]
    exact List.append_left_inj _
  rw [List.map_cons, List.map_cons]
  by_cases hno : e.noBody = true
  · obtain ⟨b, xs, htail, hb⟩ := encodeParts_start (dataParts e.sends) rest
    rw [readResponses_cons (readResponse_noBody hread hno),
      show tail = b :: xs from htail]
    exact iff_of_false (fun h => readResponses_ne hb xs es h.2)
      fun h => by rw [h.1.has_body] at hno; cases hno
  · have hno' : e.noBody = false := Bool.not_eq_true _ ▸ hno
    rcases decodeChunked_parts (dataParts e.sends) rest with ⟨hall, hd⟩ | ⟨hall, data, parts, hd⟩
    · rw [readResponses_cons
        (readResponse_chunked hread hno' (framing_transferChunked _) hd), e.dataParts_bytes]
      refine and_congr_left fun _ => ?_
      constructor
      · intro h
        exact ⟨hno', hall, hfs.1 (congrArg Http11.Message.fields h)⟩
      · intro h
        rw [hfs.2 h.values]
        simp [Exchange.message, hno']
    · obtain ⟨b, xs, htail, hb⟩ := encodeParts_start parts rest
      rw [htail] at hd
      rw [readResponses_cons
        (readResponse_chunked hread hno' (framing_transferChunked _) hd)]
      exact iff_of_false (fun h => readResponses_ne hb xs es h.2) fun h => hall h.1.parts

theorem readResponses_written_iff (es : List Exchange) :
    readResponses (es.map Exchange.isHead) (es.flatMap Exchange.written) =
        some (es.map Exchange.message) ↔ ∀ e ∈ es, e.InStep := by
  induction es with
  | nil => simp [readResponses]
  | cons e es ih => rw [List.flatMap_cons, e.readResponses_iff, ih, List.forall_mem_cons]

/-- Every kept connection with requests that are accepted, however its stream is cut and ends, and
every complete response to each of them: a client reads exactly these responses from what is written
if and only if every exchange leaves it in step. A length of zero has to be read as zero. -/
theorem responses_read_iff (m : THttpModule) (hka : m.keepAlive = true) (es : List Exchange)
    (hmax : m.maxLen = 0 ∨ (es.flatMap fun e => e.request.encode).length < m.maxLen)
    (hreq : ∀ e ∈ es, e.request.start.length ≤ m.maxReq)
    (hlen : ∀ e ∈ es, framing e.request.view = some (.length 0) →
      (flatHead e.request).contentLength = 0) (c : Cutting (es.flatMap fun e => e.request.encode))
    (f : Option TException) :
    readResponses (es.map Exchange.isHead)
        (m.doRun (es.map fun e _ => e.behaviour) (c.script f) (⟨[], []⟩ : TWire)).output.accepted =
      some (es.map Exchange.message) ↔ ∀ e ∈ es, e.InStep := by
  have hlen' : ∀ e ∈ es, (flatHead e.request).contentLength = 0 :=
    fun e he => e.bodiless.elim flatHead_contentLength (hlen e he)
  rw [THttpModule.doRun, loop_output hka hmax hreq hlen' (.of_yields (c.yields f)) []]
  exact readResponses_written_iff es

def getHead : Head := .ofAscii "GET / HTTP/1.1" [] (by decide) (by decide)

def headHead : Head := .ofAscii "HEAD / HTTP/1.1" [] (by decide) (by decide)

/-- A request that is answered with the body `hi`, in a send of its own. -/
def answered (request : Head) (http11 : ascii "HTTP/1.1" <:+ request.start)
    (bodiless : framing request.view = some .unframed) : Exchange where
  request
  http11
  bodiless := .inl bodiless
  response := okHead []
  status := by decide
  body := ascii "hi"
  behaviour := .send [(okHead []).encode] fun _ => .send [ascii "hi"] fun _ => .ret
  sends := [[(okHead []).encode], [ascii "hi"]]
  answers := .send (.send .ret)
  complete := by decide

def getExchange : Exchange := answered getHead (by decide) (by decide)

def headExchange : Exchange := answered headHead (by decide) (by decide)

theorem responses_read_get :
    readResponses [false, false]
        (({} : THttpModule).doRun ([getExchange, getExchange].map fun e _ => e.behaviour)
          ((Cutting.whole (by decide) : Cutting ([getExchange, getExchange].flatMap
            fun e => e.request.encode)).script none) (⟨[], []⟩ : TWire)).output.accepted =
      some [getExchange.message, getExchange.message] := by
  refine (responses_read_iff {} rfl [getExchange, getExchange] (.inl rfl) (by decide) (by decide) _
    none).2 ?_
  have hstep : getExchange.InStep := ⟨by decide, by decide +kernel, by decide⟩
  exact List.forall_mem_cons.2 ⟨hstep, List.forall_mem_singleton.2 hstep⟩

/-- The body of the response to `HEAD` is in the way of the next response. -/
theorem responses_not_read_head :
    readResponses [true, false]
        (({} : THttpModule).doRun ([headExchange, getExchange].map fun e _ => e.behaviour)
          ((Cutting.whole (by decide) : Cutting ([headExchange, getExchange].flatMap
            fun e => e.request.encode)).script none) (⟨[], []⟩ : TWire)).output.accepted ≠
      some [headExchange.message, getExchange.message] := by
  intro h
  rw [THttpModule.doRun, loop_output (m := {}) rfl (.inl rfl) (by decide) (by decide)
    (.of_yields (Cutting.yields _ none)) []] at h
  have hstep := (readResponses_written_iff [headExchange, getExchange]).1 h
  cases (hstep headExchange (List.mem_cons_self ..)).has_body

end Balancer
