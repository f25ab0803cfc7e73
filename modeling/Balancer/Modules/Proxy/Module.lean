import Balancer.Kernel.Headers

/-!
# The proxy module

`modules/proxy/module.cpp` and `modules/proxy/proxy.cpp`: the request is written to a backend and
the backend's response is read, stripped of its framing and passed on. The two directions run in two
coroutines that share nothing (`TProxy::Run`); each of them is a `TWorker`.
-/

namespace Balancer

open BlockIO Source TChunkList TStreamIterator
open Http11 (ascii)

/-! ### `TChunkedTransfer` -/

structure TChunkedTransfer (σ : Type) where
  it : TStreamIterator σ
  l : Nat

namespace TChunkedTransfer

variable {σ : Type} [ISizedInput σ]

def skipWS (it : TStreamIterator σ) : Except TException UInt8 × TStreamIterator σ :=
  match _h : it.next with
  | (.error e, it) => (.error e, it)
  | (.ok ch, it) => if ch = 13 ∨ ch = 10 then skipWS it else (.ok ch, it)
termination_by it.size
decreasing_by exact next_size _h

/-- The loop of `ParseNextChunkLength`, at the character `ch`. -/
def chunkLength (ret : Nat) (ch : UInt8) (it : TStreamIterator σ) :
    Except TException Nat × TStreamIterator σ :=
  if ch = 10 then (.ok ret, it)
  else
    let ret := if ch = 13 then ret else toSizeT (ret * 16 + char2Digit ch)
    match _h : it.next with
    | (.error e, it) => (.error e, it)
    | (.ok ch, it) => chunkLength ret ch it
termination_by it.size
decreasing_by exact next_size _h

def parseNextChunkLength (it : TStreamIterator σ) : Except TException Nat × TStreamIterator σ :=
  match skipWS it with
  | (.error e, it) => (.error e, it)
  | (.ok ch, it) => chunkLength 0 ch it

/-- An exception of `ParseNextChunkLength` loses the data that were read before it. -/
def doRecv (c : TChunkedTransfer σ) : Except TException TChunkList × TChunkedTransfer σ :=
  if c.l = 0 then (.ok [], c)
  else
    match c.it.nextLen c.l with
    | (.error e, it) => (.error e, { c with it })
    | (.ok lst, it) =>
      let l := c.l - fullLength lst
      if l = 0 then
        match parseNextChunkLength it with
        | (.error e, it) => (.error e, ⟨it, 0⟩)
        | (.ok l, it) => (.ok lst, ⟨it, l⟩)
      else (.ok lst, ⟨it, l⟩)

/-! The size lines are read by `Next()` alone, so what this call keeps is kept. -/

section Rules

variable {P : TStreamIterator σ → Prop} {it it' : TStreamIterator σ}

theorem next_rule (hP : ∀ it, P it → P (it.nextLen 1).2) (h : P it) (hn : it.next = (r, it')) :
    P it' := by
  have := hP it h
  rwa [← it.next_snd, hn] at this

theorem skipWS_rule (hP : ∀ it, P it → P (it.nextLen 1).2) (h : P it) : P (skipWS it).2 := by
  fun_induction skipWS it with
  | case1 it e it' hn => exact next_rule hP h hn
  | case2 it ch it' hn hws ih => exact ih (next_rule hP h hn)
  | case3 it ch it' hn hws => exact next_rule hP h hn

theorem chunkLength_rule (hP : ∀ it, P it → P (it.nextLen 1).2) (h : P it) (ret : Nat)
    (ch : UInt8) : P (chunkLength ret ch it).2 := by
  fun_induction chunkLength ret ch it with
  | case1 ret it => exact h
  | case2 ret ch it hlf e it' hn => exact next_rule hP h hn
  | case3 ret ch it hlf ret' ch' it' hn ih => exact ih (next_rule hP h hn)

theorem parseNextChunkLength_rule (hP : ∀ it, P it → P (it.nextLen 1).2) (h : P it)
    (hp : parseNextChunkLength it = (r, it')) : P it' := by
  have hws := skipWS_rule hP h
  unfold parseNextChunkLength at hp
  rcases hs : skipWS it with ⟨e | ch, it₁⟩
  · rw [hs] at hp hws
    cases hp
    exact hws
  · rw [hs] at hp hws
    have hlen := chunkLength_rule hP hws 0 ch
    rwa [show chunkLength 0 ch it₁ = (r, it') from hp] at hlen

end Rules

/-- What is left in an iterator after some reading. -/
structure After (it it' : TStreamIterator σ) : Prop where
  size : it'.size ≤ it.size
  turns : it'.turns ≤ it.turns

theorem After.refl (it : TStreamIterator σ) : After it it := ⟨Nat.le_refl _, Nat.le_refl _⟩

theorem After.nextLen {it it' : TStreamIterator σ} (h : After it it') (len : Nat) :
    After it (it'.nextLen len).2 :=
  ⟨Nat.le_trans (it'.nextLen_size_le len) h.size, Nat.le_trans (it'.nextLen_turns_le len) h.turns⟩

theorem After.parseNextChunkLength {it it₁ it₂ : TStreamIterator σ} (h : After it it₁)
    (hp : parseNextChunkLength it₁ = (r, it₂)) : After it it₂ :=
  parseNextChunkLength_rule (fun _ h => h.nextLen 1) h hp

theorem doRecv_zero {it : TStreamIterator σ} : doRecv ⟨it, 0⟩ = (.ok [], ⟨it, 0⟩) := rfl

theorem doRecv_error {it it' : TStreamIterator σ} {l : Nat} (hl : l ≠ 0)
    (h : it.nextLen l = (.error e, it')) : doRecv ⟨it, l⟩ = (.error e, ⟨it', l⟩) := by
  simp [doRecv, hl, h]

theorem doRecv_inside {it it' : TStreamIterator σ} {l : Nat} {lst : TChunkList} (hl : l ≠ 0)
    (h : it.nextLen l = (.ok lst, it')) (hlt : fullLength lst < l) :
    doRecv ⟨it, l⟩ = (.ok lst, ⟨it', l - fullLength lst⟩) := by
  have : l - fullLength lst ≠ 0 := by omega
  simp [doRecv, hl, h, this]

theorem doRecv_last {it it' : TStreamIterator σ} {l : Nat} {lst : TChunkList} (hl : l ≠ 0)
    (h : it.nextLen l = (.ok lst, it')) (hle : l ≤ fullLength lst) :
    doRecv ⟨it, l⟩ = match parseNextChunkLength it' with
      | (.error e, it) => (.error e, ⟨it, 0⟩)
      | (.ok l, it) => (.ok lst, ⟨it, l⟩) := by
  have : l - fullLength lst = 0 := by omega
  simp [doRecv, hl, h, this]

theorem after_doRecv (c : TChunkedTransfer σ) : After c.it c.doRecv.2.it := by
  obtain ⟨it, l⟩ := c
  by_cases hl : l = 0
  · subst hl
    exact .refl it
  · have hn := (After.refl it).nextLen l
    rcases h : it.nextLen l with ⟨e | lst, it'⟩
    · rw [doRecv_error hl h]
      simpa [h] using hn
    · simp only [h] at hn
      rcases Nat.lt_or_ge (fullLength lst) l with hlt | hle
      · rw [doRecv_inside hl h hlt]
        exact hn
      · rw [doRecv_last hl h hle]
        rcases hp : parseNextChunkLength it' with ⟨e | l', it''⟩
        · exact hn.parseNextChunkLength hp
        · exact hn.parseNextChunkLength hp

instance : IIoInput (TChunkedTransfer σ) where
  recv := doRecv
  turns c := c.it.size + c.it.turns
  turns_le c := by
    have h := after_doRecv c
    have := h.size
    have := h.turns
    omega
  turns_lt {c lst} hr hne := by
    obtain ⟨it, l⟩ := c
    by_cases hl : l = 0
    · subst hl
      exact absurd (Except.ok.inj hr).symm hne
    · rcases h : it.nextLen l with ⟨e | lst', it'⟩
      · rw [doRecv_error hl h] at hr
        cases hr
      · have hn := (After.refl it).nextLen l
        simp only [h] at hn
        have hsize := nextLen_size h
        -- the list is the one that the iterator handed out, before or after a size line
        have hlast : lst = lst' ∧ After it' (doRecv ⟨it, l⟩).2.it := by
          rcases Nat.lt_or_ge (fullLength lst') l with hlt | hle
          · rw [doRecv_inside hl h hlt] at hr ⊢
            exact ⟨(Except.ok.inj hr).symm, .refl it'⟩
          · rw [doRecv_last hl h hle] at hr ⊢
            rcases hp : parseNextChunkLength it' with ⟨e | l', it''⟩
            · rw [hp] at hr
              cases hr
            · rw [hp] at hr
              exact ⟨(Except.ok.inj hr).symm, (After.refl it').parseNextChunkLength hp⟩
        obtain ⟨rfl, ha⟩ := hlast
        have := ha.size
        have := ha.turns
        have := hn.turns
        have := hn.size
        rcases nextLen_turns_lt h hne with h' | h'
        · simp only
          omega
        · simp only
          omega

/-- The constructor parses the size of the first chunk. -/
def ofSlave (slave : σ) : Except TException (TChunkedTransfer σ) × TStreamIterator σ :=
  match parseNextChunkLength ⟨slave, []⟩ with
  | (.error e, it) => (.error e, it)
  | (.ok l, it) => (.ok ⟨it, l⟩, it)

end TChunkedTransfer

/-! ### `TLimitedBackEndInput` -/

/-- `THelper::Slave` -/
abbrev TSlave (σ : Type) := TConcatInput TOwnedInput σ

/-- `P_`: a `TChunkedInput`, a `TContentLengthInput` or a `TPrechargedConcatInput`. -/
inductive TBackEndBody (σ : Type) where
  | chunked (p : TChunkedTransfer (TSlave σ))
  | contentLength (p : TLengthLimitedInput (TSlave σ))
  | precharged (p : TSlave σ)

namespace TBackEndBody

variable {σ : Type} [ISizedInput σ]

def doRecv : TBackEndBody σ → Except TException TChunkList × TBackEndBody σ
  | chunked p => let (r, p) := recv p; (r, chunked p)
  | contentLength p => let (r, p) := recv p; (r, contentLength p)
  | precharged p => let (r, p) := recv p; (r, precharged p)

def turns : TBackEndBody σ → Nat
  | chunked p => Source.turns p
  | contentLength p => Source.turns p
  | precharged p => Source.turns p

instance : IIoInput (TBackEndBody σ) where
  recv := doRecv
  turns := turns
  turns_le p := by cases p <;> exact turns_le _
  turns_lt {p l} hr hl := by
    cases p with
    | chunked p | contentLength p | precharged p => exact turns_lt (s := p) hr hl

end TBackEndBody

/-- `P_` is built by the first `Recv`. -/
inductive TLimitedBackEndInput (σ : Type) where
  | start (s : σ)
  | body (p : TBackEndBody σ)

namespace TLimitedBackEndInput

variable {σ : Type} [ISizedInput σ]

/-- The input for the body of a response, or the exception of its constructor and what is left of
the backend's stream. -/
def bodyInput (props : TResponseProperties) (unparsed : TChunkList) (s : σ) :
    Except (TException × σ) (TBackEndBody σ) :=
  let slave : TSlave σ := { f := ⟨unparsed⟩, s }
  if props.chunkedTransfer then
    match TChunkedTransfer.ofSlave slave with
    | (.error e, it) => .error (e, it.s.s)
    | (.ok p, _) => .ok (.chunked p)
  else if props.contentLength ≠ 0 then .ok (.contentLength ⟨slave, props.contentLength, none⟩)
  else .ok (.precharged slave)

def buildInputChain (s : σ) : Except TException TChunkList × TLimitedBackEndInput σ :=
  match ({} : TRequestParseContextHard).parse s with
  | (.error e, s) => (.error e, start s)
  | (.ok ctx, s) =>
    let (props, r) := ctx.request.responseProperties
    match bodyInput props ctx.unparsed s with
    | .error (e, s) => (.error e, start s)
    | .ok p => (.ok (r.buildTo []), body p)

def doRecv : TLimitedBackEndInput σ → Except TException TChunkList × TLimitedBackEndInput σ
  | start s => buildInputChain s
  | body p => let (r, p) := recv p; (r, body p)

/-- A response has a list for its head and one for each list and each byte of its body. -/
def turns : TLimitedBackEndInput σ → Nat
  | start s => SizedSource.size s + Source.turns s + 2
  | body p => Source.turns p

theorem slave_turns (unparsed : TChunkList) (s : σ) :
    Source.turns ({ f := ⟨unparsed⟩, s } : TSlave σ) ≤ Source.turns s + 1 := by
  change (if unparsed = [] then 0 else 1) + Source.turns s ≤ Source.turns s + 1
  split <;> omega

theorem ofSlave_turns {slave : TSlave σ} {p : TChunkedTransfer (TSlave σ)}
    (h : TChunkedTransfer.ofSlave slave = (.ok p, it)) :
    Source.turns p ≤ SizedSource.size slave + Source.turns slave := by
  unfold TChunkedTransfer.ofSlave at h
  rcases hp : TChunkedTransfer.parseNextChunkLength (⟨slave, []⟩ : TStreamIterator (TSlave σ))
    with ⟨e | l, it'⟩
  · rw [hp] at h
    cases h
  · rw [hp] at h
    cases h
    have ha := (TChunkedTransfer.After.refl _).parseNextChunkLength hp
    have h1 := ha.size
    have h2 := ha.turns
    have e1 : TStreamIterator.size (⟨slave, []⟩ : TStreamIterator (TSlave σ)) =
      SizedSource.size slave := by simp [TStreamIterator.size]
    have e2 : TStreamIterator.turns (⟨slave, []⟩ : TStreamIterator (TSlave σ)) =
      Source.turns slave := by simp [TStreamIterator.turns]
    change it.size + it.turns ≤ _
    omega

/-- What every `Recv` of the backend's stream keeps is kept by the constructor. -/
theorem ofSlave_source {P : σ → Prop} (hP : ∀ s, P s → P (recv s).2) {slave : TSlave σ}
    (h : P slave.s) (hs : TChunkedTransfer.ofSlave slave = (r, it)) : P it.s.s := by
  have hslave : ∀ c : TSlave σ, P c.s → P (recv c).2.s := by
    intro c hc
    have := hP c.s hc
    rcases TConcatInput.doRecv_cases c with ⟨-, -, e⟩ | ⟨-, -, e⟩ | ⟨-, -, e⟩ | ⟨-, -, e⟩ |
      ⟨-, e⟩ <;>
      rw [TConcatInput.recv_eq, e] <;> assumption
  have hnext : ∀ it : TStreamIterator (TSlave σ), P it.s.s → P (it.nextLen 1).2.s.s :=
    fun it hit => it.nextLen_source hslave hit 1
  unfold TChunkedTransfer.ofSlave at hs
  rcases hp : TChunkedTransfer.parseNextChunkLength (⟨slave, []⟩ : TStreamIterator (TSlave σ))
    with ⟨e | l, it'⟩
  all_goals
    rw [hp] at hs
    cases hs
    exact TChunkedTransfer.parseNextChunkLength_rule (P := fun it => P it.s.s) hnext h hp

theorem bodyInput_turns {props : TResponseProperties} {unparsed : TChunkList} {s : σ}
    {p : TBackEndBody σ} (h : bodyInput props unparsed s = .ok p) :
    Source.turns p ≤ unparsed.flatten.length + SizedSource.size s + Source.turns s + 1 := by
  have hslave := slave_turns unparsed s
  unfold bodyInput at h
  simp only at h
  split at h
  · split at h
    · cases h
    · next p' _ hs =>
      cases h
      have hsize : SizedSource.size ({ f := ⟨unparsed⟩, s } : TSlave σ) =
        unparsed.flatten.length + SizedSource.size s := rfl
      have hp := ofSlave_turns hs
      change Source.turns p' ≤ _
      omega
  · split at h
    · cases h
      change Source.turns ({ f := ⟨unparsed⟩, s } : TSlave σ) ≤ _
      omega
    · cases h
      change Source.turns ({ f := ⟨unparsed⟩, s } : TSlave σ) ≤ _
      omega

theorem bodyInput_source {P : σ → Prop} (hP : ∀ s, P s → P (recv s).2) {props : TResponseProperties}
    {unparsed : TChunkList} {s s' : σ} (hs : P s)
    (h : bodyInput props unparsed s = .error (e, s')) : P s' := by
  unfold bodyInput at h
  simp only at h
  split at h
  · split at h
    · next heq =>
      cases h
      exact ofSlave_source hP hs heq
    · cases h
  · split at h <;> cases h

/-- The three ways through `BuildInputChain`. -/
theorem buildInputChain_cases (s : σ) :
    (∃ e s', ({} : TRequestParseContextHard).parse s = (.error e, s') ∧
      buildInputChain s = (.error e, start s')) ∨
    (∃ ctx s' e s'', ({} : TRequestParseContextHard).parse s = (.ok ctx, s') ∧
      bodyInput ctx.request.responseProperties.1 ctx.unparsed s' = .error (e, s'') ∧
      buildInputChain s = (.error e, start s'')) ∨
    ∃ ctx s' p, ({} : TRequestParseContextHard).parse s = (.ok ctx, s') ∧
      bodyInput ctx.request.responseProperties.1 ctx.unparsed s' = .ok p ∧
      buildInputChain s = (.ok (ctx.request.responseProperties.2.buildTo []), body p) := by
  unfold buildInputChain
  rcases hp : ({} : TRequestParseContextHard).parse s with ⟨e | ctx, s'⟩
  · exact .inl ⟨e, s', rfl, rfl⟩
  · rcases hb : bodyInput ctx.request.responseProperties.1 ctx.unparsed s' with ⟨e, s''⟩ | p
    · exact .inr (.inl ⟨ctx, s', e, s'', rfl, hb, by simp only [hb]⟩)
    · exact .inr (.inr ⟨ctx, s', p, rfl, hb, by simp only [hb]⟩)

theorem buildInputChain_turns (s : σ) :
    turns (buildInputChain s).2 ≤ turns (start s) ∧
      ∀ l, (buildInputChain s).1 = .ok l → turns (buildInputChain s).2 < turns (start s) := by
  have hturns := TRequestParseContextHard.parse_turns {} s
  obtain ⟨hsize, hok⟩ := TRequestParseContextHard.parse_size s
  rcases buildInputChain_cases s with ⟨e, s', hp, hb⟩ | ⟨ctx, s', e, s'', hp, hi, hb⟩ |
    ⟨ctx, s', p, hp, hi, hb⟩
  · rw [hp] at hturns hsize
    rw [hb]
    refine ⟨?_, fun l h => by cases h⟩
    simp only [turns] at hturns hsize ⊢
    omega
  · rw [hp] at hturns hsize
    rw [hb]
    refine ⟨?_, fun l h => by cases h⟩
    have hrecv : ∀ s₁ : σ, (SizedSource.size s₁ ≤ SizedSource.size s' ∧
        Source.turns s₁ ≤ Source.turns s') → SizedSource.size (recv s₁).2 ≤ SizedSource.size s' ∧
        Source.turns (recv s₁).2 ≤ Source.turns s' := by
      intro s₁ h
      have := SizedSource.size_le s₁
      have := turns_le s₁
      omega
    have := bodyInput_source hrecv ⟨Nat.le_refl _, Nat.le_refl _⟩ hi
    simp only [turns] at hturns hsize ⊢
    omega
  · have hun := hok ctx (by rw [hp])
    rw [hp] at hturns hun
    have hbody := bodyInput_turns hi
    have hlt : turns (buildInputChain s).2 < turns (start s) := by
      rw [hb]
      simp only [turns] at hturns hun ⊢
      omega
    exact ⟨Nat.le_of_lt hlt, fun _ _ => hlt⟩

instance : IIoInput (TLimitedBackEndInput σ) where
  recv := doRecv
  turns := turns
  turns_le i := by
    cases i with
    | start s => exact (buildInputChain_turns s).1
    | body p => exact turns_le p
  turns_lt {i l} hr hl := by
    cases i with
    | start s => exact (buildInputChain_turns s).2 l hr
    | body p => exact turns_lt (s := p) hr hl

end TLimitedBackEndInput

/-! ### Workers -/

/-- `TWorker::Run`: everything from `I_` is sent to `O_`, which is the output of this behaviour. -/
def TWorker.run {ι : Type} [IIoInput ι] (i : ι) : TBehaviour :=
  match _h : recv i with
  | (.error e, _) => .throw e
  | (.ok lst, i) =>
    if _hlst : lst = [] then .ret
    else .send lst fun r =>
      match r with
      | .error e => .throw e
      | .ok () => TWorker.run i
termination_by Source.turns i
decreasing_by
  have := turns_lt (congrArg Prod.fst _h) _hlst
  rwa [_h] at this

/-- `THttpRequestInput` and `TConcatInput` of the proxy's `DoRun`: what is written to the
backend. -/
def proxyInput {σ : Type} (request : TRequest) (input : σ) : TConcatInput THttpRequestInput σ where
  f := .ofRequest request [ascii "Connection: Close\r\n"]
  s := input

/-- The proxy's `DoRun` on the side of the client, with the result of `Connect` and the backend's
stream. The worker for the other direction is `TWorker.run (proxyInput request input)`; it runs in a
coroutine of its own, where its exceptions are swallowed. -/
def proxyRun {ρ : Type} [ISizedInput ρ] (ret : Int) (backEnd : ρ) : TBehaviour :=
  if ret ≠ 0 then .throw (.systemError ret "connect error")
  else TWorker.run (TLimitedBackEndInput.start backEnd)

end Balancer
