import Balancer.Kernel.HttpFsm
import Balancer.Kernel.Iterator

/-!
# Requests and their parser

`kernel/http.h` and `kernel/http.cpp`. The pointers of the parser are modelled by what they point
to: `sp`, `p` are offsets into the current chunk, `curHdr` is the index of a header of the request
and `curTok` names one of the chunk lists of the request. The generated code keeps the machine state
in the program counter and stores it in `cs` only when it runs off the end of the buffer, so the
`return` of `endOfHeaders` leaves `cs` as it was at the start of the chunk.
-/

namespace Balancer

open BlockIO ParseHttpRequest Source

def CRLF : TChunk := [13, 10]
def HDRD : TChunk := [58, 32]

structure THeader where
  key : TChunkList := []
  value : TChunkList := []
  deriving DecidableEq, Repr

structure TRequest where
  request : TChunkList := []
  headers : List THeader := []
  deriving DecidableEq, Repr

/-- A chunk list of a request that a parser pointer can refer to. -/
inductive TTokRef where
  | request
  | key (hdr : Nat)
  | value (hdr : Nat)
  deriving DecidableEq, Repr

namespace TRequest

def modifyTok (r : TRequest) (t : TTokRef) (f : TChunkList → TChunkList) : TRequest :=
  match t with
  | .request => { r with request := f r.request }
  | .key i => { r with headers := r.headers.modify i fun h => { h with key := f h.key } }
  | .value i => { r with headers := r.headers.modify i fun h => { h with value := f h.value } }

/-- `NewHeader()`, with a reference to the new header. -/
def newHeader (r : TRequest) : TRequest × Nat :=
  ({ r with headers := r.headers ++ [{}] }, r.headers.length)

/-- `BuildTo(lst, customHeaders)`, with the chunks it appends to `lst`. -/
def buildTo (r : TRequest) (customHeaders : TChunkList) : TChunkList :=
  r.request ++ [CRLF] ++
    r.headers.flatMap (fun h => h.key ++ [HDRD] ++ h.value ++ [CRLF]) ++
    customHeaders ++ [CRLF]

end TRequest

structure TRequestParseContextHard where
  cs : State := .start
  curTok : Option TTokRef := none
  curHdr : Option Nat := none
  request : TRequest := {}
  unparsed : TChunkList := []

namespace TRequestParseContextHard

/-- `AddPartTo(b, e, *curTok)`. -/
def addPartToTok (ctx : TRequestParseContextHard) (cur : TChunk) (b e : Nat) :
    TRequestParseContextHard :=
  match ctx.curTok with
  | some t => { ctx with request := ctx.request.modifyTok t (cur.addPartTo b e) }
  | none => ctx

/-- One action at the byte at offset `p` of `cur`. The part of `endOfHeaders` after the byte is
`finish`. -/
def act (cur : TChunk) (p : Nat) :
    Nat × TRequestParseContextHard → Action → Nat × TRequestParseContextHard
  | (sp, ctx), .startOfRequest => (sp, { ctx with curTok := some .request })
  | (sp, ctx), .startOfKey =>
    let (request, hdr) := ctx.request.newHeader
    (sp, { ctx with request, curHdr := some hdr, curTok := some (.key hdr) })
  | (sp, ctx), .startOfValue =>
    (sp, { ctx with curTok := ctx.curHdr.map .value, curHdr := none })
  | (sp, ctx), .endOfToken => (sp, { ctx.addPartToTok cur sp p with curTok := none })
  | (_, ctx), .nextToken => (p, ctx)
  | (sp, ctx), .endOfHeaders =>
    (sp, { ctx with unparsed := cur.addPartTo (p + 1) cur.length ctx.unparsed })

/-- How the generated code leaves a chunk. -/
inductive TExec where
  | out (sp : Nat) (ctx : TRequestParseContextHard)
  | error
  | ret (ctx : TRequestParseContextHard)

/-- The generated code from state `q` on, at offset `p` of `cur` with the bytes `rem` to go. -/
def exec (cur : TChunk) : State → Nat → Nat → List UInt8 → TRequestParseContextHard → TExec
  | q, sp, _, [], ctx => .out sp { ctx with cs := q }
  | q, sp, p, c :: rem, ctx =>
    match transition q c with
    | none => .error
    | some (q', acts) =>
      let (sp, ctx) := acts.foldl (act cur p) (sp, ctx)
      if .endOfHeaders ∈ acts then .ret ctx else exec cur q' sp (p + 1) rem ctx

/-- `ParseChunk(lst)`: its answer and the context after it. -/
def parseChunk (ctx : TRequestParseContextHard) :
    TChunkList → Except TException (Bool × TRequestParseContextHard)
  | [] => .ok (false, ctx)
  | cur :: lst =>
    match exec cur ctx.cs 0 0 cur ctx with
    | .error => .error (.httpParseError 400 "can not parse http request")
    | .ret ctx => .ok (true, { ctx with unparsed := ctx.unparsed ++ lst })
    | .out sp ctx => parseChunk (ctx.addPartToTok cur sp cur.length) lst

/-- `TRequestParseContext::Parse()`. -/
def parse [IIoInput σ] (ctx : TRequestParseContextHard) (s : σ) :
    Except TException TRequestParseContextHard × σ :=
  match _h : recv s with
  | (.error e, s) => (.error e, s)
  | (.ok lst, s) =>
    if _hlst : TChunkList.fullLength lst = 0 then
      (.error (.httpParseError 400 "incomplete request"), s)
    else
      match ctx.parseChunk lst with
      | .error e => (.error e, s)
      | .ok (true, ctx) => (.ok ctx, s)
      | .ok (false, ctx) => ctx.parse s
termination_by Source.turns s
decreasing_by
  have hr := congrArg Prod.fst _h
  have hne : lst ≠ [] := by
    rintro rfl
    exact _hlst rfl
  have := turns_lt hr hne
  rwa [_h] at this

/-! ### What the parser takes from its input -/

section Measures

variable {q q' : State} {c : UInt8} {acts : List Action}

/-- Until the end of the headers the actions leave `Unparsed` alone. -/
theorem acts_unparsed (ht : transition q c = some (q', acts)) (hend : .endOfHeaders ∉ acts)
    (sp p : Nat) (cur : TChunk) (ctx : TRequestParseContextHard) :
    (acts.foldl (act cur p) (sp, ctx)).2.unparsed = ctx.unparsed := by
  rcases transition_cases ht with ⟨rfl, _⟩ | ⟨rfl, _⟩ | ⟨rfl, _⟩ | ⟨rfl, _⟩ | ⟨rfl, _⟩ | ⟨rfl, _⟩ |
    ⟨rfl | rfl, _⟩
  case inr.inr.inl =>
    simp only [List.foldl, act, addPartToTok]
    split <;> rfl
  case inr.inr.inr.inr.inr.inr.inl | inr.inr.inr.inr.inr.inr.inr => simp at hend
  all_goals rfl

theorem acts_unparsed_end (ht : transition q c = some (q', acts)) (hend : .endOfHeaders ∈ acts)
    (sp p : Nat) (cur : TChunk) (ctx : TRequestParseContextHard) :
    (acts.foldl (act cur p) (sp, ctx)).2.unparsed =
      cur.addPartTo (p + 1) cur.length ctx.unparsed ∧ q' = .final := by
  rcases transition_cases ht with ⟨rfl, _⟩ | ⟨rfl, _⟩ | ⟨rfl, _⟩ | ⟨rfl, _⟩ | ⟨rfl, _⟩ | ⟨rfl, _⟩ |
    ⟨rfl | rfl, _, rfl⟩
  case inr.inr.inr.inr.inr.inr.inl | inr.inr.inr.inr.inr.inr.inr => exact ⟨rfl, rfl⟩
  all_goals simp at hend

theorem exec_unparsed {cur : TChunk} {sp p : Nat} {rem : List UInt8}
    {ctx ctx' : TRequestParseContextHard} :
    (∀ sp', exec cur q sp p rem ctx = .out sp' ctx' → ctx'.unparsed = ctx.unparsed) ∧
      (exec cur q sp p rem ctx = .ret ctx' →
        ctx'.unparsed.flatten.length ≤ ctx.unparsed.flatten.length + cur.length) := by
  induction rem generalizing q sp p ctx with
  | nil =>
    refine ⟨fun sp' h => ?_, fun h => ?_⟩
    · cases h
      rfl
    · cases h
  | cons c rem ih =>
    simp only [exec]
    cases ht : transition q c with
    | none => refine ⟨fun sp' h => ?_, fun h => ?_⟩ <;> cases h
    | some qa =>
      obtain ⟨q', acts⟩ := qa
      by_cases hend : .endOfHeaders ∈ acts
      · simp only [hend, if_true]
        refine ⟨fun sp' h => (by cases h), fun h => ?_⟩
        cases h
        have hpart : (cur.subChunk (p + 1) cur.length).length ≤ cur.length := by
          simp [TChunk.subChunk]
        rw [(acts_unparsed_end ht hend sp p cur ctx).1, TChunk.addPartTo_flatten,
          List.length_append]
        omega
      · simp only [hend, if_false]
        rw [← acts_unparsed ht hend sp p cur ctx]
        exact ih

theorem parseChunk_unparsed {ctx ctx' : TRequestParseContextHard} {lst : TChunkList} {b : Bool}
    (h : ctx.parseChunk lst = .ok (b, ctx')) :
    ctx'.unparsed.flatten.length ≤ ctx.unparsed.flatten.length + lst.flatten.length := by
  induction lst generalizing ctx with
  | nil =>
    cases h
    exact Nat.le_add_right _ _
  | cons cur lst ih =>
    simp only [parseChunk] at h
    rw [List.flatten_cons, List.length_append]
    cases hx : exec cur ctx.cs 0 0 cur ctx with
    | error => rw [hx] at h; cases h
    | ret ctx₁ =>
      have := exec_unparsed.2 hx
      rw [hx] at h
      cases h
      rw [List.flatten_append, List.length_append]
      omega
    | out sp ctx₁ =>
      have hu : (ctx₁.addPartToTok cur sp cur.length).unparsed = ctx.unparsed := by
        rw [← exec_unparsed.1 sp hx]
        unfold addPartToTok
        split <;> rfl
      rw [hx] at h
      have := ih h
      rw [hu] at this
      omega

/-- What the actions keep, the state stored at the end of a chunk and the part of a token before
that end. -/
structure Invariant (P : TRequestParseContextHard → Prop) : Prop where
  act : ∀ {cur p x} a, p ≤ cur.length → P x.2 → P (act cur p x a).2
  add : ∀ {cur sp ctx}, P ctx → P (ctx.addPartToTok cur sp cur.length)
  store : ∀ {q ctx}, q = ctx.cs ∨ q ≠ .final → P ctx → P { ctx with cs := q }
  rest : ∀ {u ctx}, P ctx → P { ctx with unparsed := u }

theorem Invariant.exec {P : TRequestParseContextHard → Prop} (I : Invariant P) {cur : TChunk}
    {sp p : Nat} {rem : List UInt8} {ctx ctx' : TRequestParseContextHard} (h : P ctx)
    (hq : q = ctx.cs ∨ q ≠ .final) (hp : p + rem.length = cur.length) :
    (∀ sp', exec cur q sp p rem ctx = .out sp' ctx' → P ctx') ∧
      (exec cur q sp p rem ctx = .ret ctx' → P ctx') := by
  induction rem generalizing q sp p ctx with
  | nil =>
    refine ⟨fun sp' hx => ?_, fun hx => ?_⟩
    · cases hx
      exact I.store hq h
    · cases hx
  | cons c rem ih =>
    rw [List.length_cons] at hp
    simp only [TRequestParseContextHard.exec]
    cases ht : transition q c with
    | none => refine ⟨fun sp' hx => ?_, fun hx => ?_⟩ <;> cases hx
    | some qa =>
      obtain ⟨q', acts⟩ := qa
      have h' : P (acts.foldl (TRequestParseContextHard.act cur p) (sp, ctx)).2 :=
        List.foldlRecOn acts _ (motive := fun x : Nat × TRequestParseContextHard => P x.2) h
          fun _ hx a _ => I.act a (by omega) hx
      by_cases hend : .endOfHeaders ∈ acts
      · simp only [hend, if_true]
        refine ⟨fun sp' hx => (by cases hx), fun hx => ?_⟩
        cases hx
        exact h'
      · simp only [hend, if_false]
        exact ih h' (.inr fun hf => hend (transition_final (hf ▸ ht))) (by omega)

theorem Invariant.parseChunk {P : TRequestParseContextHard → Prop} (I : Invariant P)
    {ctx ctx' : TRequestParseContextHard} {lst : TChunkList} {b : Bool} (h : P ctx)
    (hp : ctx.parseChunk lst = .ok (b, ctx')) : P ctx' := by
  induction lst generalizing ctx with
  | nil =>
    cases hp
    exact h
  | cons cur lst ih =>
    simp only [TRequestParseContextHard.parseChunk] at hp
    cases hx : TRequestParseContextHard.exec cur ctx.cs 0 0 cur ctx with
    | error => rw [hx] at hp; cases hp
    | ret ctx₁ =>
      have h₁ : P ctx₁ := (I.exec h (.inl rfl) (Nat.zero_add _)).2 hx
      rw [hx] at hp
      cases hp
      exact I.rest h₁
    | out sp ctx₁ =>
      rw [hx] at hp
      exact ih (I.add ((I.exec h (.inl rfl) (Nat.zero_add _)).1 sp hx)) hp

variable {σ : Type} {ctx ctx' : TRequestParseContextHard} {src src' : σ}

theorem parse_error [IIoInput σ] (hr : recv src = (.error e, src')) :
    ctx.parse src = (.error e, src') := by
  rw [parse]
  split
  · next h => rw [hr] at h; cases h; rfl
  · next h => rw [hr] at h; cases h

theorem parse_incomplete [IIoInput σ] {lst : TChunkList} (hr : recv src = (.ok lst, src'))
    (h0 : lst.flatten = []) :
    ctx.parse src = (.error (.httpParseError 400 "incomplete request"), src') := by
  have hlen : TChunkList.fullLength lst = 0 := by rw [TChunkList.fullLength_eq, h0]; rfl
  rw [parse]
  split
  · next h => rw [hr] at h; cases h
  · next h => rw [hr] at h; cases h; rw [dif_pos hlen]

theorem parse_cons [IIoInput σ] {lst : TChunkList} (hr : recv src = (.ok lst, src'))
    (hne : lst.flatten ≠ []) :
    ctx.parse src = match ctx.parseChunk lst with
      | .error e => (.error e, src')
      | .ok (true, ctx) => (.ok ctx, src')
      | .ok (false, ctx) => ctx.parse src' := by
  have hlen : TChunkList.fullLength lst ≠ 0 := by
    rw [TChunkList.fullLength_eq]
    exact fun h0 => hne (List.eq_nil_of_length_eq_zero h0)
  rw [parse]
  split
  · next h => rw [hr] at h; cases h
  · next h =>
    rw [hr] at h
    cases h
    rw [dif_neg hlen]

/-- Every way through the loop of `Parse`: what one `Recv` keeps and every list passed to
`ParseChunk` keeps holds at the end. -/
theorem parse_induction [IIoInput σ] {R : TRequestParseContextHard → σ → Prop}
    (hrecv : ∀ ctx src, R ctx src → R ctx (recv src).2)
    (hchunk : ∀ ctx src lst b ctx', R ctx src → (recv src).1 = .ok lst →
      ctx.parseChunk lst = .ok (b, ctx') → R ctx' (recv src).2) (h : R ctx src) :
    (∃ ctx', R ctx' (ctx.parse src).2) ∧
      ∀ ctx', (ctx.parse src).1 = .ok ctx' → R ctx' (ctx.parse src).2 := by
  induction hn : Source.turns src using Nat.strongRecOn generalizing ctx src with
  | ind n ih =>
    rcases hr : recv src with ⟨e | lst, src'⟩
    · have hR := hrecv ctx src h
      rw [hr] at hR
      rw [parse_error hr]
      exact ⟨⟨ctx, hR⟩, fun ctx' h' => by cases h'⟩
    · have hr1 : (recv src).1 = .ok lst := by rw [hr]
      have hR := hrecv ctx src h
      rw [hr] at hR
      by_cases h0 : lst.flatten = []
      · rw [parse_incomplete hr h0]
        exact ⟨⟨ctx, hR⟩, fun ctx' h' => by cases h'⟩
      · rw [parse_cons hr h0]
        rcases hp : ctx.parseChunk lst with e | ⟨_ | _, ctx₁⟩
        · exact ⟨⟨ctx, hR⟩, fun ctx' h' => by cases h'⟩
        · have hR' := hchunk ctx src lst _ ctx₁ h hr1 hp
          rw [hr] at hR'
          have hlt := turns_lt hr1 (HasData.ne_nil h0)
          rw [hr] at hlt
          exact ih _ (hn ▸ hlt) hR' rfl
        · have hR' := hchunk ctx src lst _ ctx₁ h hr1 hp
          rw [hr] at hR'
          exact ⟨⟨ctx₁, hR'⟩, fun ctx' h' => by cases h'; exact hR'⟩

theorem parse_turns [IIoInput σ] (ctx : TRequestParseContextHard) (src : σ) :
    Source.turns (ctx.parse src).2 ≤ Source.turns src := by
  have hrecv : ∀ s : σ, Source.turns s ≤ Source.turns src →
      Source.turns (recv s).2 ≤ Source.turns src :=
    fun s h => Nat.le_trans (turns_le s) h
  obtain ⟨_, h⟩ := (parse_induction (R := fun _ s => Source.turns s ≤ Source.turns src)
    (fun _ s => hrecv s) (fun _ s _ _ _ h _ _ => hrecv s h) (Nat.le_refl (Source.turns src))).1
  exact h

/-- What is left in `Unparsed` and in the input was there before. -/
theorem parse_size [ISizedInput σ] (src : σ) :
    SizedSource.size (parse {} src).2 ≤ SizedSource.size src ∧
      ∀ ctx', (parse {} src).1 = .ok ctx' →
        ctx'.unparsed.flatten.length + SizedSource.size (parse {} src).2 ≤
          SizedSource.size src := by
  let R (ctx : TRequestParseContextHard) (s : σ) : Prop :=
    ctx.unparsed.flatten.length + SizedSource.size s ≤ SizedSource.size src
  have hrecv : ∀ ctx s, R ctx s → R ctx (recv s).2 := by
    intro ctx s h
    have := SizedSource.size_le s
    simp only [R] at h ⊢
    omega
  have hchunk : ∀ ctx s lst b ctx', R ctx s → (recv s).1 = .ok lst →
      ctx.parseChunk lst = .ok (b, ctx') → R ctx' (recv s).2 := by
    intro ctx s lst b ctx' h hr hp
    have := parseChunk_unparsed hp
    have := SizedSource.size_recv hr
    simp only [R] at h ⊢
    omega
  have h0 : R {} src := by simp [R]
  have h := parse_induction hrecv hchunk h0
  obtain ⟨⟨ctx', h'⟩, hok⟩ := h
  exact ⟨Nat.le_trans (Nat.le_add_left _ _) h', hok⟩

end Measures

end TRequestParseContextHard

/-- `TPushParseContext`: a request that is parsed from the lists pushed into it. `failed` is the
error state of the machine, which it never leaves. -/
structure TPushParseContext where
  ctx : TRequestParseContextHard := {}
  failed : Bool := false

/-- `TPushParseContext::ParseChunk(lst)`: its answer with the new value of `lst`, and the context
after it. -/
def TPushParseContext.parseChunk (c : TPushParseContext) (lst : TChunkList) :
    Except TException (Bool × TChunkList) × TPushParseContext :=
  if c.failed ∧ lst ≠ [] then (.error (.httpParseError 400 "can not parse http request"), c)
  else
    match c.ctx.parseChunk lst with
    | .error e => (.error e, { c with failed := true })
    | .ok (true, ctx) => (.ok (true, ctx.unparsed), { c with ctx := { ctx with unparsed := [] } })
    | .ok (false, ctx) => (.ok (false, []), { c with ctx })

/-- `HeadersParsed()`: `Ctx.InFinalState()`. -/
def TPushParseContext.headersParsed (c : TPushParseContext) : Bool :=
  !c.failed && c.ctx.cs == .final

/-- `THttpRequestInput`: serialises a request once, with the custom headers pushed into it. It was
constructed from a request pointer that it drops when the request line is empty. -/
structure THttpRequestInput where
  r : Option TRequest
  customHeaders : TChunkList := []

namespace THttpRequestInput

def ofRequest (r : TRequest) (customHeaders : TChunkList) : THttpRequestInput where
  r := if r.request = [] then none else some r
  customHeaders

def doRecv : THttpRequestInput → Except TException TChunkList × THttpRequestInput
  | ⟨some r, custom⟩ => (.ok (r.buildTo custom), ⟨none, []⟩)
  | ⟨none, custom⟩ => (.ok [], ⟨none, custom⟩)

instance : ISizedInput THttpRequestInput where
  recv := doRecv
  turns i := if i.r.isSome then 1 else 0
  turns_le := by rintro ⟨_ | r, custom⟩ <;> simp [doRecv]
  turns_lt := by
    rintro ⟨_ | r, custom⟩ l h hl
    · exact absurd (Except.ok.inj h).symm hl
    · simp [doRecv]
  size i := i.r.elim 0 fun r => (r.buildTo i.customHeaders).flatten.length
  size_le := by rintro ⟨_ | r, custom⟩ <;> simp [doRecv]
  size_recv := by
    rintro ⟨_ | r, custom⟩ l h
    · simp [← Except.ok.inj h, doRecv]
    · simp [← Except.ok.inj h, doRecv]

end THttpRequestInput

end Balancer
