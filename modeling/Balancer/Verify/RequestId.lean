import Balancer.Modules.Headers.Module
import Balancer.Verify.Cast

/-!
# The id in the request line

What the headers module makes of a request line when `add_reqid_to_cgi` is set. The place of the id
is found by counting nine bytes from the end of the line, `" HTTP/1.1"`, and the id follows an `&`.
-/

namespace Balancer

open Http11 (ascii SP isDigit)

namespace Headers

/-! ### Request lines -/

def AMP : UInt8 := 38
def QUESTION : UInt8 := 63
def DOT : UInt8 := 46

/-- The bytes of `SP HTTP/d.d`. -/
def versionBytes (v : UInt8 × UInt8) : List UInt8 := ascii " HTTP/" ++ [v.1, DOT, v.2]

theorem length_versionBytes (v : UInt8 × UInt8) : (versionBytes v).length = 9 := rfl

def EndsWithVersion (bs : List UInt8) : Prop :=
  ∃ pre v, isDigit v.1 ∧ isDigit v.2 ∧ bs = pre ++ versionBytes v

/-- A line `method SP uri SP HTTP/d.d`, or one without a version at its end. -/
structure RequestLine where
  method : List UInt8
  uri : List UInt8
  version : Option (UInt8 × UInt8)
  method_space : SP ∉ method
  digits : ∀ v ∈ version, isDigit v.1 ∧ isDigit v.2
  versionless : version = none → ¬EndsWithVersion (method ++ SP :: uri)

namespace RequestLine

def bytes (l : RequestLine) : List UInt8 :=
  l.method ++ SP :: l.uri ++ l.version.elim [] versionBytes

/-- The uri with the parameter `reqid`. -/
def uriWith (l : RequestLine) (id : List UInt8) : List UInt8 :=
  l.uri ++ (if QUESTION ∈ l.uri then AMP else QUESTION) :: (ascii "reqid=" ++ id)

/-- `line` is what should be forwarded for `l`. -/
def Forwarded (l : RequestLine) (id line : List UInt8) : Prop :=
  match l.version with
  | some v => line = l.method ++ SP :: l.uriWith id ++ versionBytes v
  | none => ∃ method, SP ∉ method ∧ line = method ++ SP :: l.uri

end RequestLine

/-! ### The place of the id -/

theorem toText_eq (n : UInt64) : toText n = ((lastDigits 10 n.toNat).map digitChar).reverse :=
  congrArg (fun r => r.toOption.getD []) (outNumber_unsigned .longLong n.toBitVec fun _ => 0)

theorem toText_space (n : UInt64) : SP ∉ toText n := by
  have hdigit : ∀ d < 10, digitChar d ≠ SP := by decide
  rw [toText_eq]
  intro h
  obtain ⟨d, hd, heq⟩ := List.mem_map.1 (List.mem_reverse.1 h)
  exact hdigit d (lastDigits_lt .ten n.toNat d hd) heq

theorem reqId_space (p : TParams) : SP ∉ IHdrGen.reqId.text p := by
  simp only [IHdrGen.text, List.mem_append, List.mem_cons, not_or]
  exact ⟨toText_space _, by decide, toText_space _⟩

/-- What is put into the line. -/
def parameter (id : List UInt8) : List UInt8 := ascii "&reqid=" ++ id

theorem parameter_eq (id : List UInt8) : parameter id = AMP :: (ascii "reqid=" ++ id) := rfl

/-- Nine bytes from the end; in a line of less than thirteen bytes, at the end. -/
theorem fixCGI_flatten (request : TChunkList) (id : TChunk) :
    (fixCGI request id).flatten =
      if 13 ≤ request.flatten.length then
        request.flatten.take (request.flatten.length - 9) ++ parameter id ++
          request.flatten.drop (request.flatten.length - 9)
      else request.flatten ++ parameter id := by
  have hlists : (fixCGI request id).flatten =
      request.flatten.take 4 ++
        ((request.flatten.drop 4).take (subSizeT (request.flatten.drop 4).length 9) ++
        parameter id) ++ (request.flatten.drop 4).drop
          (subSizeT (request.flatten.drop 4).length 9) := by
    have hsplit : ∀ len (lst : TChunkList), TChunkList.splitUnsafe len lst [] [] =
        TChunkList.split len lst :=
      fun _ _ => rfl
    simp [fixCGI, TChunkList.splitRef, hsplit, parameter, TChunkList.fullLength_eq]
  rw [hlists]
  generalize request.flatten = line
  have hlen : (line.drop 4).length = line.length - 4 := List.length_drop
  split
  · next h =>
    have hsub : subSizeT (line.drop 4).length 9 = line.length - 13 := by
      rw [hlen, subSizeT, if_pos (by omega)]
      omega
    have htake : line.take 4 ++ (line.drop 4).take (line.length - 13) =
        line.take (line.length - 9) := by
      rw [← List.take_add]
      congr 1
      omega
    rw [hsub, ← List.append_assoc, htake, List.drop_drop]
    congr 2
    omega
  · next h =>
    -- the subtraction wraps around, or nothing is left to split
    have hsub : (line.drop 4).length ≤ subSizeT (line.drop 4).length 9 := by
      rw [hlen, subSizeT, if_neg (by omega)]
      omega
    rw [List.take_of_length_le hsub, List.drop_of_length_le hsub, List.append_nil,
      ← List.append_assoc, List.take_append_drop]

/-! ### The headers -/

namespace TModule

variable (m : TModule) (p : TParams) (r : TRequest)

/-- The header that is to be kept is not there. -/
def AddsRealIp : Prop := ∃ k ∈ m.keepRealIp, ∀ h ∈ r.headers, k.1 h.key.flatten = false

/-- The buffer holds what is generated. -/
def Fits : Prop := ¬(m.AddsRealIp r ∧ .realIp ∈ m.generators.map Prod.fst)

/-- An id is generated. -/
def AddsReqid : Prop := .reqId ∈ m.generators.map Prod.fst

instance : Decidable m.AddsReqid := by unfold AddsReqid; infer_instance

/-- What the generators take from the buffer. -/
def needed (gens : List (IHdrGen × TChunk)) : Nat := ((gens.map Prod.fst).map IHdrGen.len).sum

variable {m} {gens : List (IHdrGen × TChunk)} {buf : TBuf} {reqid : Option TChunk}

theorem applyGenerators_some (hadd : m.addReqidToCGI ≠ 0)
    (hfits : buf.used + needed gens ≤ TBuf.size) :
    ∃ headers, m.applyGenerators p gens buf r reqid = some ({ r with headers },
      if .reqId ∈ gens.map Prod.fst then some (IHdrGen.reqId.text p) else reqid) := by
  induction gens generalizing buf r reqid with
  | nil => exact ⟨r.headers, by simp [applyGenerators]⟩
  | cons gen gens ih =>
    simp only [needed, List.map_cons, List.sum_cons] at hfits
    have halloc : buf.alloc gen.1.len = some { used := buf.used + gen.1.len } := if_pos (by omega)
    have hrest : ({ used := buf.used + gen.1.len } : TBuf).used + needed gens ≤ TBuf.size := by
      rw [needed]
      simp only
      omega
    obtain ⟨headers, happly⟩ := ih (addHeader r gen.2 (gen.1.text p)) hrest
    refine ⟨headers, ?_⟩
    rw [applyGenerators, IHdrGen.gen, halloc]
    simp only [Option.map_some, Option.bind_some]
    rw [happly]
    by_cases hmem : .reqId ∈ gens.map Prod.fst
    · simp [hmem, addHeader]
    · by_cases hgen : gen.1 = .reqId
      · simp [hmem, hgen, hadd, addHeader]
      · simp [hmem, hgen, Ne.symm hgen, addHeader]

theorem applyGenerators_isSome (hbuf : buf.used ≤ TBuf.size) :
    (m.applyGenerators p gens buf r reqid).isSome ↔ buf.used + needed gens ≤ TBuf.size := by
  induction gens generalizing buf r reqid with
  | nil => simpa [applyGenerators, needed] using hbuf
  | cons gen gens ih =>
    have hneeded : needed (gen :: gens) = gen.1.len + needed gens := rfl
    rw [applyGenerators, IHdrGen.gen, TBuf.alloc, hneeded, ← Nat.add_assoc]
    by_cases hlen : gen.1.len ≤ TBuf.size - buf.used
    · rw [if_pos hlen]
      exact ih _ (show (⟨buf.used + gen.1.len⟩ : TBuf).used ≤ TBuf.size by simp only; omega)
    · rw [if_neg hlen]
      exact iff_of_false Bool.false_ne_true (by omega)

/-- Without `realip` the generators leave room for another address. -/
theorem needed_le (hnodup : (gens.map Prod.fst).Nodup) :
    needed gens ≤ REALIPLEN + STARTTIMELEN + REQIDLEN ∧
      (.realIp ∉ gens.map Prod.fst → needed gens ≤ STARTTIMELEN + REQIDLEN) := by
  have hsum : ∀ all : List IHdrGen, gens.map Prod.fst ⊆ all →
      needed gens ≤ (all.map IHdrGen.len).sum := by
    intro all hsub
    obtain ⟨l, hperm, hl⟩ := List.subperm_of_subset hnodup hsub
    rw [needed, ← (hperm.map IHdrGen.len).sum_eq]
    exact (hl.map IHdrGen.len).sum_le_sum fun _ _ => Nat.zero_le _
  refine ⟨hsum [.realIp, .startTime, .reqId] fun g _ => by cases g <;> decide, fun hip => ?_⟩
  refine hsum [.startTime, .reqId] fun g hg => ?_
  cases g with
  | realIp => exact absurd hg hip
  | startTime => decide
  | reqId => decide

theorem le_needed {g : IHdrGen} (h : g ∈ gens.map Prod.fst) : g.len ≤ needed gens :=
  List.single_le_sum (fun _ _ => Nat.zero_le _) _ (List.mem_map_of_mem h)

theorem keepHeader_adds (h : m.AddsRealIp r) :
    ∃ headers, m.keepHeader p {} r = some ({ used := REALIPLEN }, { r with headers }) := by
  obtain ⟨k, hk, hnone⟩ := h
  have hany : (r.headers.any fun h => k.1 h.key.flatten) = false := by simpa using hnone
  refine ⟨r.headers ++ [{ key := [k.2], value := [p.realIp] }], ?_⟩
  rw [keepHeader, hk]
  simp only [hany]
  rfl

theorem keepHeader_keeps (h : ¬m.AddsRealIp r) : m.keepHeader p {} r = some ({}, r) := by
  unfold keepHeader
  split
  · rfl
  · next k hk =>
    refine if_pos (Bool.not_eq_false _ ▸ fun hany => ?_)
    exact h ⟨k, hk, by simpa using hany⟩

/-- `DoRun` when the buffer holds everything. -/
theorem doRun_some (hadd : m.addReqidToCGI ≠ 0) (h : m.Fits r) :
    ∃ r', m.doRun p r = some r' ∧
      r'.request = if m.AddsReqid then fixCGI r.request (IHdrGen.reqId.text p) else r.request := by
  obtain ⟨hall, hrest⟩ := needed_le m.nodup
  obtain ⟨buf, headers, hkeep, hfits⟩ : ∃ buf headers,
      m.keepHeader p {} r = some (buf, { r with headers }) ∧
      buf.used + needed m.generators ≤ TBuf.size := by
    by_cases hip : m.AddsRealIp r
    · obtain ⟨headers, hkeep⟩ := keepHeader_adds p r hip
      refine ⟨_, headers, hkeep, ?_⟩
      have := hrest fun hmem => h ⟨hip, hmem⟩
      simp only [TBuf.size]
      omega
    · refine ⟨{}, r.headers, keepHeader_keeps p r hip, ?_⟩
      simp only [TBuf.size]
      omega
  obtain ⟨headers', happly⟩ := applyGenerators_some p
    { r with headers := headers.filter fun h => !m.fsm h.key.flatten } hadd hfits
  rw [doRun, hkeep]
  simp only [Option.bind_some]
  by_cases hmem : m.AddsReqid
  · rw [happly, if_pos hmem, if_pos (show _ ∈ _ from hmem)]
    exact ⟨_, rfl, rfl⟩
  · rw [happly, if_neg hmem, if_neg (show _ ∉ _ from hmem)]
    exact ⟨_, rfl, rfl⟩

/-- `DoRun` when two addresses are generated. -/
theorem doRun_none (h : ¬m.Fits r) : m.doRun p r = none := by
  obtain ⟨hip, hmem⟩ := not_not.1 h
  obtain ⟨headers, hkeep⟩ := keepHeader_adds p r hip
  have hneeded : REALIPLEN ≤ needed m.generators := le_needed hmem
  rw [doRun, hkeep, ← Option.not_isSome_iff_eq_none]
  simp only [Option.bind_some, Option.isSome_map]
  rw [applyGenerators_isSome p _ (by decide)]
  simp only [TBuf.size, REALIPLEN, STARTTIMELEN, REQIDLEN, PORTLEN, UI64LEN] at hneeded ⊢
  omega

end TModule

/-! ### What is forwarded -/

namespace RequestLine

variable (l : RequestLine) (id : List UInt8)

/-- The lines that get the id where it belongs: those with a query, if the id is added at all, and
of those without a version the ones whose method is long enough to be hit in place of the uri. -/
def Insertable (reqid : Prop) : Prop :=
  match l.version with
  | some _ => reqid ∧ QUESTION ∈ l.uri ∧ 3 ≤ l.method.length + l.uri.length
  | none => reqid → 12 ≤ l.method.length + l.uri.length ∧ l.uri.length ≤ 8

/-- The line of `fixCGI`. -/
def fixed : List UInt8 :=
  if 13 ≤ l.bytes.length then
    l.bytes.take (l.bytes.length - 9) ++ parameter id ++ l.bytes.drop (l.bytes.length - 9)
  else l.bytes ++ parameter id

variable {l id}

theorem bytes_some {v : UInt8 × UInt8} (h : l.version = some v) :
    l.bytes = (l.method ++ SP :: l.uri) ++ versionBytes v := by
  rw [bytes, h]
  rfl

theorem bytes_none (h : l.version = none) : l.bytes = l.method ++ SP :: l.uri := by
  rw [bytes, h]
  simp

theorem fixed_some {v : UInt8 × UInt8} (h : l.version = some v) :
    l.fixed id = if 3 ≤ l.method.length + l.uri.length then l.method ++ SP :: l.uri ++
      parameter id ++ versionBytes v
      else l.method ++ SP :: l.uri ++ versionBytes v ++ parameter id := by
  have hlen : l.bytes.length - 9 = (l.method ++ SP :: l.uri).length := by
    rw [bytes_some h, List.length_append, length_versionBytes]
    omega
  have hthree : 13 ≤ l.bytes.length ↔ 3 ≤ l.method.length + l.uri.length := by
    rw [bytes_some h, List.length_append, length_versionBytes]
    simp only [List.length_append, List.length_cons]
    omega
  rw [fixed, hlen, bytes_some h, List.take_left, List.drop_left, ← bytes_some h]
  simp only [hthree]

theorem forwarded_some {v : UInt8 × UInt8} (h : l.version = some v) :
    l.Forwarded id (l.fixed id) ↔ QUESTION ∈ l.uri ∧ 3 ≤ l.method.length + l.uri.length := by
  have hforwarded : l.Forwarded id (l.fixed id) ↔
      l.fixed id = l.method ++ SP :: l.uriWith id ++ versionBytes v := by
    rw [Forwarded, h]
  have hwanted : l.method ++ SP :: l.uriWith id ++ versionBytes v = (l.method ++ SP :: l.uri) ++
      (if QUESTION ∈ l.uri then AMP else QUESTION) :: (ascii "reqid=" ++ id ++ versionBytes v) := by
    simp [uriWith]
  rw [hforwarded, fixed_some h, hwanted]
  -- the byte behind the uri tells the lines apart
  split
  · next hlong =>
    rw [List.append_assoc, List.append_cancel_left_eq, parameter_eq, List.cons_append,
      List.cons.injEq]
    constructor
    · rintro ⟨hhead, -⟩
      by_cases hquery : QUESTION ∈ l.uri
      · exact ⟨hquery, hlong⟩
      · rw [if_neg hquery] at hhead
        exact absurd hhead (by decide)
    · exact fun h => ⟨(if_pos h.1).symm, rfl⟩
  · next hshort =>
    rw [List.append_assoc, List.append_cancel_left_eq]
    constructor
    · intro heq
      have hhead : SP = if QUESTION ∈ l.uri then AMP else QUESTION := (List.cons.inj heq).1
      split at hhead <;> exact absurd hhead (by decide)
    · exact fun h => absurd h.2 hshort

/-- The uri is what follows the first space. -/
theorem not_forwarded_none (h : l.version = none) {rest : List UInt8} (hne : rest ≠ l.uri) :
    ¬l.Forwarded id (l.method ++ SP :: rest) := by
  rw [Forwarded, h]
  rintro ⟨method, hspace, heq⟩
  have hafter : ∀ {pre post : List UInt8}, SP ∉ pre →
      ((pre ++ SP :: post).dropWhile fun b => b != SP) = SP :: post := by
    intro pre post hpre
    rw [List.dropWhile_append_of_pos, List.dropWhile_cons_of_neg (by simp)]
    intro b hb
    exact bne_iff_ne.2 fun heq => hpre (heq ▸ hb)
  have hdrop := congrArg (List.dropWhile fun b => b != SP) heq
  rw [hafter l.method_space, hafter hspace] at hdrop
  exact hne (List.cons.inj hdrop).2

theorem forwarded_none (h : l.version = none) (hid : SP ∉ id) :
    l.Forwarded id (l.fixed id) ↔ 12 ≤ l.method.length + l.uri.length ∧ l.uri.length ≤ 8 := by
  have hlen : l.bytes.length = l.method.length + l.uri.length + 1 := by
    rw [bytes_none h, List.length_append, List.length_cons]
    omega
  rw [fixed]
  split
  · next hlong =>
    by_cases huri : l.uri.length ≤ 8
    · refine ⟨fun _ => ⟨by omega, huri⟩, fun _ => ?_⟩
      -- the id is put into the method
      obtain ⟨k, hk, hplace⟩ : ∃ k, l.bytes.length - 9 = k ∧ k ≤ l.method.length :=
        ⟨_, rfl, by omega⟩
      rw [Forwarded, h, hk, bytes_none h]
      refine ⟨l.method.take k ++ parameter id ++ l.method.drop k, ?_, ?_⟩
      · simp only [List.mem_append, parameter, not_or]
        exact ⟨⟨fun hm => l.method_space (List.mem_of_mem_take hm), by decide, hid⟩,
          fun hm => l.method_space (List.mem_of_mem_drop hm)⟩
      · rw [List.take_append_of_le_length hplace, List.drop_append_of_le_length hplace,
          ← List.append_assoc]
    · refine ⟨fun hfwd => ?_, fun hcond => absurd hcond.2 huri⟩
      -- it is put into the uri
      obtain ⟨k, hk⟩ : ∃ k, l.bytes.length - 9 = l.method.length + (k + 1) :=
        ⟨l.uri.length - 9, by omega⟩
      rw [hk, bytes_none h, List.take_length_add_append, List.drop_length_add_append,
        List.take_succ_cons, List.drop_succ_cons, List.append_assoc, List.append_assoc,
        List.cons_append] at hfwd
      refine absurd hfwd (not_forwarded_none h fun heq => ?_)
      have hlength := congrArg List.length heq
      simp [parameter_eq] at hlength
      omega
  · next hshort =>
    refine ⟨fun hfwd => ?_, fun hcond => absurd hcond.1 (by omega)⟩
    rw [bytes_none h, List.append_assoc, List.cons_append] at hfwd
    refine absurd hfwd (not_forwarded_none h ?_)
    simp [parameter_eq]

theorem forwarded_fixed (hid : SP ∉ id) : l.Forwarded id (l.fixed id) ↔ l.Insertable True := by
  unfold Insertable
  split
  · next v h => rw [forwarded_some h, true_and]
  · next h => rw [forwarded_none h hid, true_imp_iff]

theorem forwarded_bytes : l.Forwarded id l.bytes ↔ l.Insertable False := by
  unfold Forwarded Insertable
  rcases h : l.version with _ | v
  · simp only [false_imp_iff, iff_true]
    exact ⟨l.method, l.method_space, bytes_none h⟩
  · simp only [false_and, iff_false]
    intro heq
    have hlength := congrArg List.length heq
    rw [bytes_some h] at hlength
    simp [uriWith] at hlength
    omega

end RequestLine

/-- A request line comes out as it should if it has a query and is not too short; without a version,
if the id is put into its method. -/
theorem doRun_forwarded_iff (m : TModule) (hadd : m.addReqidToCGI ≠ 0) (p : TParams) (r : TRequest)
    (l : RequestLine) (hline : r.request.flatten = l.bytes) :
    (∃ r', m.doRun p r = some r' ∧ l.Forwarded (IHdrGen.reqId.text p) r'.request.flatten) ↔
      m.Fits r ∧ l.Insertable m.AddsReqid := by
  by_cases hfits : m.Fits r
  · obtain ⟨r', hrun, hrequest⟩ := TModule.doRun_some p r hadd hfits
    have hiff : l.Forwarded (IHdrGen.reqId.text p) r'.request.flatten ↔
        l.Insertable m.AddsReqid := by
      rw [hrequest]
      by_cases hreqid : m.AddsReqid
      · rw [if_pos hreqid, fixCGI_flatten, hline, eq_true hreqid]
        exact RequestLine.forwarded_fixed (reqId_space p)
      · rw [if_neg hreqid, hline, eq_false hreqid]
        exact RequestLine.forwarded_bytes
    rw [hrun]
    constructor
    · rintro ⟨_, heq, h⟩
      obtain rfl := Option.some.inj heq
      exact ⟨hfits, hiff.1 h⟩
    · rintro ⟨-, h⟩
      exact ⟨r', rfl, hiff.2 h⟩
  · rw [TModule.doRun_none p r hfits]
    constructor
    · rintro ⟨_, h, -⟩
      cases h
    · exact fun h => absurd h.1 hfits

/-- A module that generates only the id. -/
def reqidModule : TModule where
  generators := [(.reqId, ascii "X-Req-Id")]
  nodup := List.nodup_singleton _
  fsm := fun _ => false
  addReqidToCGI := 1

theorem get_space : SP ∉ ascii "GET" := by decide

theorem http11_digits : ∀ v ∈ some ((49, 49) : UInt8 × UInt8), isDigit v.1 ∧ isDigit v.2 := by
  intro v hv
  obtain rfl := Option.some.inj hv
  exact ⟨rfl, rfl⟩

/-- `GET uri HTTP/1.1` -/
def getLine (uri : List UInt8) : RequestLine where
  method := ascii "GET"
  uri := uri
  version := some (49, 49)
  method_space := get_space
  digits := http11_digits
  versionless := fun h => absurd h (Option.some_ne_none _)

theorem doRun_forwarded_query :
    reqidModule.Fits { request := [(getLine (ascii "/search?text=1")).bytes] } ∧
    ∃ r', reqidModule.doRun ⟨[], 1, 2⟩ { request := [(getLine (ascii "/search?text=1")).bytes] } =
      some r' ∧
      (getLine (ascii "/search?text=1")).Forwarded (ascii "1-2") r'.request.flatten := by
  have hfits : reqidModule.Fits { request := [(getLine (ascii "/search?text=1")).bytes] } :=
    fun h => by
    obtain ⟨k, hk, -⟩ := h.1
    cases hk
  have hid : IHdrGen.reqId.text ⟨[], 1, 2⟩ = ascii "1-2" := by decide +kernel
  rw [← hid]
  refine ⟨hfits, (doRun_forwarded_iff reqidModule (by decide) ⟨[], 1, 2⟩ _ (getLine _) rfl).2
    ⟨hfits, ?_⟩⟩
  exact ⟨by decide, by decide, by decide⟩

/-- The root without a query, and a line without a version. -/
theorem doRun_forwarded_root :
    (reqidModule.doRun ⟨[], 1, 2⟩ { request := [(getLine (ascii "/")).bytes] }).map
      (fun r => r.request.flatten) = some (ascii "GET /&reqid=1-2 HTTP/1.1") ∧
    ¬(getLine (ascii "/")).Forwarded (ascii "1-2") (ascii "GET /&reqid=1-2 HTTP/1.1") ∧
    (getLine (ascii "/")).Forwarded (ascii "1-2") (ascii "GET /?reqid=1-2 HTTP/1.1") ∧
    (reqidModule.doRun ⟨[], 1, 2⟩ { request := [ascii "GET /search?text=1"] }).map
      (fun r => r.request.flatten) = some (ascii "GET /sear&reqid=1-2ch?text=1") := by
  refine ⟨by decide +kernel, ?_, ?_, by decide +kernel⟩
  · show ¬(_ = _)
    decide +kernel
  · show _ = _
    decide +kernel

end Headers

end Balancer
