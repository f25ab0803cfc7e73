import Balancer.Modules.Spdy.Frames
import Balancer.Verify.Heads
import Balancer.Verify.Inputs

/-!
# Requests of SPDY streams

The fields of a name/value block are copied into a request as they are, and `BuildTo` puts its
delimiters around them. What the parser accepts is always free of delimiters inside the parts
(`FlatState.run_wf`), so a request of a SPDY stream comes out of the forwarded head as it went in
exactly when its parts are free of them already (`forwarded_block_iff`).
-/

namespace Balancer

open BlockIO ParseHttpRequest
open Http11 (ascii)

/-! ### What the parser accepts -/

namespace FlatRequest.WF

variable {r : FlatRequest} {request : List UInt8} {hs hs' : List (List UInt8 × List UInt8)}
  {k v : List UInt8}

theorem left (H : FlatRequest.WF ⟨request, hs ++ hs'⟩) : FlatRequest.WF ⟨request, hs⟩ := by
  have hmem : ∀ h ∈ hs, h ∈ hs ++ hs' := fun h hh => List.mem_append_left _ hh
  exact ⟨H.request_ne, H.request_char, fun h hh => H.key_ne h (hmem h hh),
    fun h hh => H.key_hchar h (hmem h hh), fun h hh => H.value_char h (hmem h hh),
    fun h hh => H.value_head h (hmem h hh)⟩

theorem concat (H : FlatRequest.WF ⟨request, hs⟩) (hk : k ≠ []) (hkc : ∀ b ∈ k, isHchar b)
    (hvc : ∀ b ∈ v, isChar b) (hvh : ∀ b ∈ v.head?, isHdelim b = false) :
    FlatRequest.WF ⟨request, hs ++ [(k, v)]⟩ := by
  refine ⟨H.request_ne, H.request_char, ?_, ?_, ?_, ?_⟩ <;>
    rw [List.forall_mem_append, List.forall_mem_singleton]
  · exact ⟨H.key_ne, hk⟩
  · exact ⟨H.key_hchar, hkc⟩
  · exact ⟨H.value_char, hvc⟩
  · exact ⟨H.value_head, hvh⟩

end FlatRequest.WF

instance (r : FlatRequest) : Decidable r.WF :=
  decidable_of_iff (r.request ≠ [] ∧ (∀ b ∈ r.request, isChar b) ∧ ∀ h ∈ r.headers,
      h.1 ≠ [] ∧ (∀ b ∈ h.1, isHchar b) ∧ (∀ b ∈ h.2, isChar b) ∧ ∀ b ∈ h.2.head?,
      isHdelim b = false)
    ⟨fun ⟨h1, h2, h3⟩ => ⟨h1, h2, fun h hh => (h3 h hh).1, fun h hh => (h3 h hh).2.1,
        fun h hh => (h3 h hh).2.2.1, fun h hh => (h3 h hh).2.2.2⟩,
      fun H => ⟨H.request_ne, H.request_char, fun h hh =>
        ⟨H.key_ne h hh, H.key_hchar h hh, H.value_char h hh, H.value_head h hh⟩⟩⟩

namespace FlatState

variable {s : FlatState} {c : UInt8} {q : State} {acts : List Action}

/-- The token that is open in a state belongs to the last header. -/
def OpenToken (s : FlatState) : Prop :=
  match s.cs with
  | .request => s.curTok = some .request
  | .key => ∃ hs k, s.req.headers = hs ++ [(k, [])] ∧ s.curTok = some (.key hs.length) ∧
      s.curHdr = some hs.length
  | .delim => ∃ hs k, s.req.headers = hs ++ [(k, [])] ∧ s.curTok = none ∧ s.curHdr = some hs.length
  | .value => ∃ hs k v, s.req.headers = hs ++ [(k, v)] ∧ v ≠ [] ∧ s.curTok = some (.value hs.length)
  | _ => s.curTok = none

/-- What was parsed so far is well formed. -/
structure Parsing (s : FlatState) : Prop where
  tok : s.OpenToken
  start : s.cs = .start → s.req = {}
  wf : s.cs ≠ .start → s.req.WF

theorem parsing_init : Parsing {} := ⟨rfl, fun _ => rfl, fun h => absurd rfl h⟩

/-- A byte outside of a token changes the state of the machine only. -/
theorem Parsing.pass (H : s.Parsing) {s' : FlatState} (hs : s.cs ≠ .start) (hs' : s'.cs ≠ .start)
    (hreq : s'.req = s.req) (htok : s'.OpenToken) : s'.Parsing :=
  ⟨htok, fun h => absurd h hs', fun _ => hreq ▸ H.wf hs⟩

theorem Parsing.start_step (H : s.Parsing) (hs : s.cs = .start) (hc : isChar c) :
    (s.step .request [.startOfRequest] c).Parsing := by
  have hreq := H.start hs
  refine ⟨rfl, fun h => (by cases h), fun _ => ?_⟩
  simp only [step, act, List.foldl_cons, List.foldl_nil, hreq]
  refine ⟨by simp [FlatRequest.push], ?_, ?_, ?_, ?_, ?_⟩ <;> simp [FlatRequest.push, hc]

theorem Parsing.request_step (H : s.Parsing) (hs : s.cs = .request) (hc : isChar c) :
    (s.step .request [] c).Parsing := by
  have htok : s.curTok = some .request := by
    have := H.tok
    rwa [OpenToken, hs] at this
  have hwf := H.wf (by simp [hs])
  refine ⟨htok, fun h => (by cases h), fun _ => ?_⟩
  simp only [step, List.foldl_nil, htok, FlatRequest.pushOpt_some, FlatRequest.push]
  exact ⟨by simp, List.forall_mem_append.2 ⟨hwf.request_char, List.forall_mem_singleton.2 hc⟩,
    hwf.key_ne, hwf.key_hchar, hwf.value_char, hwf.value_head⟩

theorem Parsing.newKey_step (H : s.Parsing) (hs : s.cs = .line) (hc : isHchar c) :
    (s.step .key [.nextToken, .startOfKey] c).Parsing := by
  have hwf := H.wf (by simp [hs])
  have hreq : (s.step .key [.nextToken, .startOfKey] c).req =
      ⟨s.req.request, s.req.headers ++ [([c], [])]⟩ := by
    simp [step, act, FlatRequest.push, modify_last]
  refine ⟨⟨s.req.headers, [c], by rw [hreq], rfl, rfl⟩, fun h => (by cases h), fun _ => ?_⟩
  rw [hreq]
  exact hwf.concat (by simp) (by simp [hc]) (by simp) (by simp)

theorem Parsing.key_step (H : s.Parsing) (hs : s.cs = .key) (hc : isHchar c) :
    (s.step .key [] c).Parsing := by
  obtain ⟨hdrs, k, hh, htok, hhdr⟩ : ∃ hdrs k, s.req.headers = hdrs ++ [(k, [])] ∧
      s.curTok = some (.key hdrs.length) ∧ s.curHdr = some hdrs.length := by
    have := H.tok
    rwa [OpenToken, hs] at this
  have hwf := H.wf (by simp [hs])
  have hreq : (s.step .key [] c).req = ⟨s.req.request, hdrs ++ [(k ++ [c], [])]⟩ := by
    simp [step, htok, hh, FlatRequest.push, modify_last]
  have hmem : (k, ([] : List UInt8)) ∈ s.req.headers := by simp [hh]
  refine ⟨⟨hdrs, k ++ [c], by rw [hreq], htok, hhdr⟩, fun h => (by cases h), fun _ => ?_⟩
  rw [hreq]
  have hlast : FlatRequest.WF ⟨s.req.request, hdrs ++ [(k, [])]⟩ := hh ▸ hwf
  exact hlast.left.concat (by simp)
    (List.forall_mem_append.2 ⟨hwf.key_hchar _ hmem, List.forall_mem_singleton.2 hc⟩) (by simp)
      (by simp)

theorem Parsing.newValue_step (H : s.Parsing) (hs : s.cs = .delim) (hc : isHchar c) :
    (s.step .value [.nextToken, .startOfValue] c).Parsing := by
  obtain ⟨hdrs, k, hh, htok, hhdr⟩ : ∃ hdrs k, s.req.headers = hdrs ++ [(k, [])] ∧
      s.curTok = none ∧ s.curHdr = some hdrs.length := by
    have := H.tok
    rwa [OpenToken, hs] at this
  have hwf := H.wf (by simp [hs])
  have hreq : (s.step .value [.nextToken, .startOfValue] c).req =
      ⟨s.req.request, hdrs ++ [(k, [c])]⟩ := by
    simp [step, act, hhdr, hh, FlatRequest.push, modify_last]
  have hmem : (k, ([] : List UInt8)) ∈ s.req.headers := by simp [hh]
  refine ⟨⟨hdrs, k, [c], by rw [hreq], by simp, ?_⟩, fun h => (by cases h), fun _ => ?_⟩
  · simp [step, act, hhdr]
  · rw [hreq]
    have hlast : FlatRequest.WF ⟨s.req.request, hdrs ++ [(k, [])]⟩ := hh ▸ hwf
    refine hlast.left.concat (hwf.key_ne _ hmem) (hwf.key_hchar _ hmem) ?_ ?_
    · simp [isHchar_isChar hc]
    · simp [isHchar_isHdelim hc]

theorem Parsing.value_step (H : s.Parsing) (hs : s.cs = .value) (hc : isChar c) :
    (s.step .value [] c).Parsing := by
  obtain ⟨hdrs, k, v, hh, hv, htok⟩ : ∃ hdrs k v, s.req.headers = hdrs ++ [(k, v)] ∧
      v ≠ [] ∧ s.curTok = some (.value hdrs.length) := by
    have := H.tok
    rwa [OpenToken, hs] at this
  have hwf := H.wf (by simp [hs])
  have hreq : (s.step .value [] c).req = ⟨s.req.request, hdrs ++ [(k, v ++ [c])]⟩ := by
    simp [step, htok, hh, FlatRequest.push, modify_last]
  have hmem : (k, v) ∈ s.req.headers := by simp [hh]
  refine ⟨⟨hdrs, k, v ++ [c], by rw [hreq], by simp, htok⟩, fun h => (by cases h), fun _ => ?_⟩
  rw [hreq]
  have hlast : FlatRequest.WF ⟨s.req.request, hdrs ++ [(k, v)]⟩ := hh ▸ hwf
  refine hlast.left.concat (hwf.key_ne _ hmem) (hwf.key_hchar _ hmem)
    (List.forall_mem_append.2 ⟨hwf.value_char _ hmem, List.forall_mem_singleton.2 hc⟩) ?_
  rw [List.head?_append_of_ne_nil _ hv]
  exact hwf.value_head _ hmem

theorem Parsing.step (H : s.Parsing) (h : transition s.cs c = some (q, acts)) :
    (s.step q acts c).Parsing := by
  have htok := H.tok
  have hq := transition_ne_start h
  unfold OpenToken at htok
  cases hs : s.cs with
  | start =>
    simp only [hs, transition] at h
    split at h <;> cases h
    next hc => exact H.start_step hs hc
  | request =>
    simp only [hs, transition] at h
    repeat' split at h
    all_goals cases h
    · next hc => exact H.request_step hs hc
    · exact H.pass (by simp [hs]) hq rfl rfl
    · exact H.pass (by simp [hs]) hq rfl rfl
  | requestCr =>
    simp only [hs] at htok
    simp only [hs, transition] at h
    split at h <;> cases h
    exact H.pass (by simp [hs]) hq (by simp [FlatState.step, htok]) htok
  | line =>
    simp only [hs] at htok
    simp only [hs, transition] at h
    repeat' split at h
    all_goals cases h
    · next hc => exact H.newKey_step hs hc
    · exact H.pass (by simp [hs]) hq (by simp [FlatState.step, act, htok]) htok
    · exact H.pass (by simp [hs]) hq (by simp [FlatState.step, act, htok]) htok
  | key =>
    simp only [hs] at htok
    obtain ⟨hdrs, k, hh, -, hhdr⟩ := htok
    simp only [hs, transition] at h
    repeat' split at h
    all_goals cases h
    · next hc => exact H.key_step hs hc
    · exact H.pass (by simp [hs]) hq rfl ⟨hdrs, k, hh, rfl, hhdr⟩
  | delim =>
    simp only [hs] at htok
    obtain ⟨hdrs, k, hh, htok, hhdr⟩ := htok
    simp only [hs, transition] at h
    repeat' split at h
    all_goals cases h
    · refine H.pass (by simp [hs]) hq (by simp [FlatState.step, htok]) ⟨hdrs, k, ?_, htok, hhdr⟩
      simp [FlatState.step, htok, hh]
    · next hc => exact H.newValue_step hs hc
    · exact H.pass (by simp [hs]) hq (by simp [FlatState.step, act, htok]) htok
    · exact H.pass (by simp [hs]) hq (by simp [FlatState.step, act, htok]) htok
  | value =>
    simp only [hs, transition] at h
    repeat' split at h
    all_goals cases h
    · next hc => exact H.value_step hs hc
    · exact H.pass (by simp [hs]) hq rfl rfl
    · exact H.pass (by simp [hs]) hq rfl rfl
  | headerCr =>
    simp only [hs] at htok
    simp only [hs, transition] at h
    split at h <;> cases h
    exact H.pass (by simp [hs]) hq (by simp [FlatState.step, htok]) htok
  | lastCr =>
    simp only [hs] at htok
    simp only [hs, transition] at h
    split at h <;> cases h
    exact H.pass (by simp [hs]) hq (by simp [FlatState.step, act, htok]) htok
  | final => simp [hs, transition] at h

theorem Parsing.run_wf (H : s.Parsing) {xs tail : List UInt8} {req : FlatRequest}
    (h : s.run xs = .done req tail) : req.WF := by
  induction xs generalizing s with
  | nil => cases h
  | cons c xs ih =>
    rw [run] at h
    split at h
    · cases h
    · next q acts ht =>
      split at h
      · cases h
        exact (H.step ht).wf (transition_ne_start ht)
      · exact ih (H.step ht) h

end FlatState

/-! ### Blocks that are accepted -/

namespace Spdy

variable {σ : Type} [IIoInput σ] {it it' : TStreamIterator σ} {r : TRequest}

theorem THeadersBlock.parse_ok (h : THeadersBlock.parse.apply it = (.ok r, it')) :
    ∃ st : Fields, st.method ≠ [] ∧ st.request ≠ [] ∧ st.version ≠ [] ∧
      r = ⟨st.method ++ [ascii " "] ++ st.request ++ [ascii " "] ++ st.version, st.headers⟩ := by
  unfold THeadersBlock.parse at h
  obtain ⟨fields, it₁, -, h⟩ := TReader.bind_ok h
  obtain ⟨st, it₂, -, h⟩ := TReader.bind_ok h
  by_cases hm : st.method = []
  · simp [hm] at h
  by_cases hr : st.request = []
  · simp [hm, hr] at h
  by_cases hv : st.version = []
  · simp [hm, hr, hv] at h
  simp only [hm, hr, hv, if_false, TReader.apply_pure, Prod.mk.injEq, Except.ok.injEq] at h
  exact ⟨st, hm, hr, hv, h.1.symm⟩

end Spdy

/-! ### Heads that are forwarded -/

/-- The header that the proxy adds. -/
def connectionCloseHeader : THeader := ⟨[ascii "Connection"], [ascii "Close"]⟩

theorem forwardedHead_eq {r : TRequest} (h : r.request ≠ []) :
    forwardedHead r = ((⟨r.request, r.headers ++ [connectionCloseHeader]⟩ : TRequest).buildTo
      []).flatten := by
  have hline : ascii "Connection: Close\r\n" =
      ascii "Connection" ++ HDRD ++ ascii "Close" ++ CRLF := by decide
  rw [forwardedHead, if_neg h, hline]
  simp [TRequest.buildTo, connectionCloseHeader]

theorem FlatRun.outcome_done {x : FlatRun} {req : FlatRequest} {tail : List UInt8} :
    x.outcome = .ok (some (req, tail)) ↔ x = .done req tail := by
  cases x <;> simp [FlatRun.outcome]

/-- The parser gives back the request line and the headers that were built, exactly if they are well
formed. -/
theorem TRequest.run_buildTo_iff (r : TRequest) :
    ({} : FlatState).run (r.buildTo []).flatten = .done r.flat [] ↔ r.flat.WF := by
  constructor
  · intro h
    exact FlatState.parsing_init.run_wf h
  · intro h
    simpa using TRequest.run_buildTo h []

/-- Any block that `Parse` accepts, and the head of the request that the proxy writes for it,
however it is cut on its way to a parser: the parser finds the request line and the headers of the
block, followed by the header that the proxy adds and by nothing else, exactly when the request
line, the keys and the values of the block hold none of the bytes that the parser takes for
delimiters there. -/
theorem forwarded_block_iff {σ : Type} [IIoInput σ] (it : TStreamIterator σ) (r : TRequest)
    (h : (Spdy.THeadersBlock.parse.apply it).1 = .ok r) (ls : List TChunkList)
    (hls : bytesOf ls = forwardedHead r) :
    ({} : TRequestParseContextHard).parseLists ls =
        .ok (some (⟨r.flat.request, r.flat.headers ++ [(ascii "Connection", ascii "Close")]⟩, [])) ↔
      r.flat.WF := by
  obtain ⟨st, -, -, -, hr⟩ := Spdy.THeadersBlock.parse_ok (Prod.ext h rfl)
  have hne : r.request ≠ [] := by simp [hr]
  have hflat : (⟨r.flat.request, r.flat.headers ++ [(ascii "Connection", ascii "Close")]⟩ :
      FlatRequest) = (⟨r.request, r.headers ++ [connectionCloseHeader]⟩ : TRequest).flat := by
    simp [TRequest.flat, connectionCloseHeader]
  rw [Ready.init.parseLists rfl, FlatRun.outcome_done, hls, forwardedHead_eq hne, hflat,
    TRequest.run_buildTo_iff, ← hflat]
  constructor
  · exact FlatRequest.WF.left
  · intro H
    exact H.concat (by decide) (List.all_eq_true.1 (by decide)) (List.all_eq_true.1 (by decide))
      (by decide +kernel)

/-- A name/value block in one chunk, as `TInflate` leaves it. -/
def nameValueBlock (fields : List (List UInt8 × List UInt8)) : TStreamIterator TNullStream where
  s := {}
  l := [[0, UInt8.ofNat fields.length] ++ fields.flatMap fun f =>
    [0, UInt8.ofNat f.1.length] ++ f.1 ++ [0, UInt8.ofNat f.2.length] ++ f.2]

/-- A plain request. -/
theorem forwarded_block_get :
    ({} : TRequestParseContextHard).parseLists
        [[ascii "GET /p HTTP/1.1\r\nhost: h\r\nConnection: Close\r\n\r\n"]] =
      .ok (some (⟨ascii "GET /p HTTP/1.1",
        [(ascii "host", ascii "h"), (ascii "Connection", ascii "Close")]⟩, [])) :=
  (forwarded_block_iff
    (nameValueBlock [(ascii "method", ascii "GET"), (ascii "url", ascii "http://h/p"),
      (ascii "version", ascii "HTTP/1.1")])
    ⟨[ascii "GET", ascii " ", ascii "/p", ascii " ", ascii "HTTP/1.1"],
      [⟨[ascii "host"], [ascii "h"]⟩]⟩
    (by decide +kernel) _ (by decide +kernel)).2 (by decide +kernel)

/-- A header whose value holds the end of a line: the block has the headers `host` and `a`, the
forwarded request also has the header `x`. -/
theorem forwarded_block_split :
    ∃ r, (Spdy.THeadersBlock.parse.apply (nameValueBlock [(ascii "method", ascii "GET"),
        (ascii "url", ascii "http://h/p"), (ascii "version", ascii "HTTP/1.1"),
        (ascii "a", ascii "b\r\nx: y")])).1 = .ok r ∧
      r.flat.headers = [(ascii "host", ascii "h"), (ascii "a", ascii "b\r\nx: y")] ∧
      ({} : TRequestParseContextHard).parseLists [[forwardedHead r]] =
        .ok (some (⟨ascii "GET /p HTTP/1.1", [(ascii "host", ascii "h"), (ascii "a", ascii "b"),
          (ascii "x", ascii "y"), (ascii "Connection", ascii "Close")]⟩, [])) :=
  ⟨⟨[ascii "GET", ascii " ", ascii "/p", ascii " ", ascii "HTTP/1.1"],
    [⟨[ascii "host"], [ascii "h"]⟩, ⟨[ascii "a"], [ascii "b\r\nx: y"]⟩]⟩,
    by decide +kernel, by decide +kernel, by decide +kernel⟩

end Balancer
