import Balancer.Kernel.Http

/-!
# The parser and the flat machine

The parser stitches its tokens from pointers into chunks that survive chunk boundaries. The *flat
machine* (`FlatState.run`) reads a plain byte string and appends each byte to the token that is open
after the byte. `Sim` relates the two: the bytes between `sp` and `p` are those that the flat
machine has already appended to the open token. Since the flat machine does not see chunks, the
outcome of the parser does not depend on how the bytes were cut (`outcome_eq_flat`).
-/

namespace Balancer

open BlockIO ParseHttpRequest TRequestParseContextHard

/-- The bytes of a request: its line, and its headers in order. -/
structure FlatRequest where
  request : List UInt8 := []
  headers : List (List UInt8 × List UInt8) := []
  deriving DecidableEq, Repr

namespace FlatRequest

def push (r : FlatRequest) (t : TTokRef) (b : List UInt8) : FlatRequest :=
  match t with
  | .request => { r with request := r.request ++ b }
  | .key i => { r with headers := r.headers.modify i fun h => (h.1 ++ b, h.2) }
  | .value i => { r with headers := r.headers.modify i fun h => (h.1, h.2 ++ b) }

/-- Append to the open token, if there is one. -/
def pushOpt (r : FlatRequest) (t : Option TTokRef) (b : List UInt8) : FlatRequest :=
  t.elim r fun t => r.push t b

@[simp] theorem push_nil (r : FlatRequest) (t : TTokRef) : r.push t [] = r := by
  cases t with
  | request => simp [push]
  | key i | value i =>
    have h : (r.headers.modify i fun h => (h.1, h.2)) = r.headers := List.modify_id ..
    simp [push, h]

theorem push_push (r : FlatRequest) (t : TTokRef) (a b : List UInt8) :
    (r.push t a).push t b = r.push t (a ++ b) := by
  cases t <;> simp [push, List.modify_modify_eq, Function.comp_def]

@[simp] theorem pushOpt_none (r : FlatRequest) (b : List UInt8) : r.pushOpt none b = r := rfl

@[simp] theorem pushOpt_some (r : FlatRequest) (t : TTokRef) (b : List UInt8) :
    r.pushOpt (some t) b = r.push t b := rfl

@[simp] theorem pushOpt_nil (r : FlatRequest) (t : Option TTokRef) : r.pushOpt t [] = r := by
  cases t <;> simp

theorem pushOpt_pushOpt (r : FlatRequest) (t : Option TTokRef) (a b : List UInt8) :
    (r.pushOpt t a).pushOpt t b = r.pushOpt t (a ++ b) := by
  cases t <;> simp [push_push]

end FlatRequest

/-- The bytes of a parsed request. -/
def TRequest.flat (r : TRequest) : FlatRequest where
  request := r.request.flatten
  headers := r.headers.map fun h => (h.key.flatten, h.value.flatten)

theorem TRequest.flat_modifyTok (r : TRequest) (t : TTokRef) (f : TChunkList → TChunkList)
    {b : List UInt8} (hf : ∀ l, (f l).flatten = l.flatten ++ b) :
    (r.modifyTok t f).flat = r.flat.push t b := by
  cases t with
  | request => simp [modifyTok, flat, FlatRequest.push, hf]
  | key i | value i =>
    simp only [modifyTok, flat, FlatRequest.push, FlatRequest.mk.injEq, true_and]
    apply List.ext_getElem?
    intro j
    simp only [List.getElem?_map, List.getElem?_modify]
    split <;> cases r.headers[j]? <;> simp [hf]

/-! ### The flat machine -/

structure FlatState where
  cs : State := .start
  curTok : Option TTokRef := none
  curHdr : Option Nat := none
  req : FlatRequest := {}
  deriving DecidableEq, Repr

namespace FlatState

def act : FlatState → Action → FlatState
  | s, .startOfRequest => { s with curTok := some .request }
  | s, .startOfKey =>
    { s with
      req := { s.req with headers := s.req.headers ++ [([], [])] }
      curHdr := some s.req.headers.length
      curTok := some (.key s.req.headers.length) }
  | s, .startOfValue => { s with curTok := s.curHdr.map .value, curHdr := none }
  | s, .endOfToken => { s with curTok := none }
  | s, .nextToken | s, .endOfHeaders => s

/-- One byte: its actions, and then the byte itself for the token that is open. -/
def step (s : FlatState) (q : State) (acts : List Action) (c : UInt8) : FlatState :=
  let s := acts.foldl act s
  { s with cs := q, req := s.req.pushOpt s.curTok [c] }

end FlatState

/-- How a run of the flat machine ends: in need of more bytes, without a transition, or at the end
of the headers, with the request and the bytes after it. -/
inductive FlatRun where
  | more (s : FlatState)
  | error
  | done (req : FlatRequest) (tail : List UInt8)
  deriving DecidableEq, Repr

def FlatState.run : FlatState → List UInt8 → FlatRun
  | s, [] => .more s
  | s, c :: rem =>
    match transition s.cs c with
    | none => .error
    | some (q, acts) =>
      if .endOfHeaders ∈ acts then .done (s.step q acts c).req rem else (s.step q acts c).run rem

/-- More bytes after those of a run. -/
def FlatRun.append : FlatRun → List UInt8 → FlatRun
  | more s, b => s.run b
  | error, _ => error
  | done req tail, b => done req (tail ++ b)

theorem FlatState.run_append (s : FlatState) (a b : List UInt8) :
    s.run (a ++ b) = (s.run a).append b := by
  induction a generalizing s with
  | nil => rfl
  | cons c a ih =>
    simp only [List.cons_append, run]
    split
    · rfl
    · split
      · rfl
      · exact ih _

/-- A run that comes to the end of the headers has read a block of bytes up to there. -/
theorem FlatState.run_done {s : FlatState} {xs tail : List UInt8} {req : FlatRequest}
    (h : s.run xs = .done req tail) : ∃ block, xs = block ++ tail ∧ block ≠ [] ∧
    s.run block = .done req [] := by
  induction xs generalizing s with
  | nil => cases h
  | cons c xs ih =>
    simp only [run] at h
    split at h
    · cases h
    · next q acts ht =>
      split at h
      · next he =>
        cases h
        exact ⟨[c], rfl, List.cons_ne_nil _ _, by simp [run, ht, he]⟩
      · next he =>
        obtain ⟨block, rfl, -, hb⟩ := ih h
        exact ⟨c :: block, rfl, List.cons_ne_nil _ _, by simp [run, ht, he, hb]⟩

/-! ### The simulation -/

namespace TChunk

variable {cur : TChunk} {sp p : Nat} {c : UInt8} {rem : List UInt8}

theorem subChunk_succ (h : cur.drop p = c :: rem) (hsp : sp ≤ p) :
    cur.subChunk sp (p + 1) = cur.subChunk sp p ++ [c] := by
  have hp : cur[p]? = some c := by rw [← List.head?_drop, h]; rfl
  have hlen : (cur.take p).length = p := by
    have := (List.getElem?_eq_some_iff.mp hp).1
    rw [List.length_take]
    omega
  rw [subChunk, subChunk, List.take_add_one, hp, List.drop_append_of_le_length (by omega)]
  rfl

theorem subChunk_self (cur : TChunk) (p : Nat) : cur.subChunk p p = [] := by
  simp [subChunk]

theorem subChunk_one (h : cur.drop p = c :: rem) : cur.subChunk p (p + 1) = [c] := by
  rw [subChunk_succ h (Nat.le_refl p), subChunk_self, List.nil_append]

end TChunk

/-- The flat machine in state `s` has read what the parser has, which is at offset `p` of `cur`. -/
structure Sim (s : FlatState) (q : State) (cur : TChunk) (sp p : Nat)
    (ctx : TRequestParseContextHard) : Prop where
  cs : s.cs = q
  curTok : s.curTok = ctx.curTok
  curHdr : s.curHdr = ctx.curHdr
  req : s.req = ctx.request.flat.pushOpt ctx.curTok (cur.subChunk sp p)
  le : sp ≤ p
  start : q = .start → sp = p
  tok : ctx.curTok.isSome = q.inTok
  hdr : q = .key ∨ q = .delim → ctx.curHdr.isSome

namespace Sim

variable {s : FlatState} {q q' : State} {cur : TChunk} {sp p : Nat} {c : UInt8}
  {rem : List UInt8} {acts : List Action} {ctx : TRequestParseContextHard}

theorem curTok_none (H : Sim s q cur sp p ctx) (h : q.inTok = false) : ctx.curTok = none := by
  have := H.tok
  rw [h] at this
  simpa using this

theorem curTok_some (H : Sim s q cur sp p ctx) (h : q.inTok = true) : ∃ t, ctx.curTok = some t := by
  have := H.tok
  rw [h] at this
  exact Option.isSome_iff_exists.mp this

/-- One byte: the actions of its transition keep the simulation. -/
theorem step (H : Sim s q cur sp p ctx) (hc : cur.drop p = c :: rem)
    (ht : transition q c = some (q', acts)) :
    Sim (s.step q' acts c) q' cur (acts.foldl (TRequestParseContextHard.act cur p) (sp, ctx)).1
      (p + 1) (acts.foldl (TRequestParseContextHard.act cur p) (sp, ctx)).2 := by
  have hle := H.le
  rcases transition_cases ht with ⟨rfl, htok, hst, hhdr⟩ | ⟨rfl, rfl, rfl⟩ |
    ⟨rfl, htok, htok', hst, hhdr⟩ | ⟨rfl, htok, rfl⟩ | ⟨rfl, rfl, rfl⟩ |
    ⟨rfl, htok, htok', hst, hdl⟩ | ⟨rfl | rfl, htok, rfl⟩
  · -- inside a token the byte joins the open part; outside there is none
    refine ⟨rfl, H.curTok, H.curHdr, ?_, Nat.le_succ_of_le hle, fun h => absurd h hst,
      H.tok.trans htok.symm, fun h => H.hdr (hhdr h)⟩
    change s.req.pushOpt s.curTok [c] =
      ctx.request.flat.pushOpt ctx.curTok (cur.subChunk sp (p + 1))
    rw [H.req, H.curTok, FlatRequest.pushOpt_pushOpt, TChunk.subChunk_succ hc hle]
  · -- the first byte of the input is the first byte of its chunk
    have hnone := H.curTok_none rfl
    refine ⟨rfl, rfl, H.curHdr, ?_, Nat.le_succ_of_le hle, by simp, rfl, by simp⟩
    change s.req.push .request [c] = ctx.request.flat.push .request (cur.subChunk sp (p + 1))
    rw [H.req, hnone, H.start rfl, TChunk.subChunk_one hc, FlatRequest.pushOpt_none]
  · obtain ⟨t, hsome⟩ := H.curTok_some htok
    have hflat := ctx.request.flat_modifyTok t (cur.addPartTo sp p)
      (cur.addPartTo_flatten sp p)
    refine ⟨rfl, rfl, ?_, ?_, Nat.le_succ_of_le hle, fun h => absurd h hst, htok'.symm, ?_⟩
    · simpa [TRequestParseContextHard.act, addPartToTok, hsome,
        FlatState.step, FlatState.act] using H.curHdr
    · simp [TRequestParseContextHard.act, addPartToTok, hsome,
        FlatState.step, FlatState.act, hflat, H.req]
    · intro h
      simpa [TRequestParseContextHard.act, addPartToTok, hsome]
        using H.hdr (.inl (hhdr h))
  · have hnone := H.curTok_none htok
    have hreq : s.req = ctx.request.flat := by rw [H.req, hnone, FlatRequest.pushOpt_none]
    have hlen : s.req.headers.length = ctx.request.headers.length := by simp [hreq, TRequest.flat]
    refine ⟨rfl, ?_, ?_, ?_, Nat.le_succ p, by simp, rfl, ?_⟩
    · simp [FlatState.step, FlatState.act, TRequestParseContextHard.act, TRequest.newHeader, hlen]
    · simp [FlatState.step, FlatState.act, TRequestParseContextHard.act, TRequest.newHeader, hlen]
    · simp [FlatState.step, FlatState.act, TRequestParseContextHard.act, TRequest.newHeader,
        TChunk.subChunk_one hc, hreq, TRequest.flat]
    · simp [TRequestParseContextHard.act, TRequest.newHeader]
  · have hnone := H.curTok_none rfl
    obtain ⟨i, hi⟩ := Option.isSome_iff_exists.mp (H.hdr (.inr rfl))
    have hi' := H.curHdr.trans hi
    refine ⟨rfl, ?_, rfl, ?_, Nat.le_succ p, by simp, ?_, by simp⟩
    · simp [FlatState.step, FlatState.act, TRequestParseContextHard.act, hi, hi']
    · simp [FlatState.step, FlatState.act, TRequestParseContextHard.act, hi, hi', H.req, hnone,
        TChunk.subChunk_one hc]
    · simp [TRequestParseContextHard.act, hi, State.inTok]
  · have hnone := H.curTok_none htok
    have htok'' : q'.inTok = (none : Option TTokRef).isSome := htok'
    refine ⟨rfl, H.curTok, H.curHdr, ?_, Nat.le_succ p, fun h => absurd h hst, ?_, ?_⟩
    · simp [FlatState.step, FlatState.act, TRequestParseContextHard.act, H.req, H.curTok, hnone]
    · simp [TRequestParseContextHard.act, hnone, htok']
    · rintro (rfl | rfl)
      · cases htok'
      · exact absurd rfl hdl
  · have hnone := H.curTok_none htok
    refine ⟨rfl, H.curTok, H.curHdr, ?_, Nat.le_succ_of_le hle, by simp, ?_, by simp⟩
    · simp [FlatState.step, FlatState.act, TRequestParseContextHard.act, H.req, H.curTok, hnone]
    · simp [TRequestParseContextHard.act, hnone, State.inTok]
  · have hnone := H.curTok_none htok
    refine ⟨rfl, H.curTok, H.curHdr, ?_, Nat.le_succ p, by simp, ?_, by simp⟩
    · simp [FlatState.step, FlatState.act, TRequestParseContextHard.act, H.req, H.curTok, hnone]
    · simp [TRequestParseContextHard.act, hnone, State.inTok]

/-- The end of the headers: everything after the byte goes to `Unparsed`. -/
theorem finish (H : Sim s q cur sp p ctx) (hc : cur.drop p = c :: rem)
    (ht : transition q c = some (q', acts)) (hend : .endOfHeaders ∈ acts) :
    (acts.foldl (TRequestParseContextHard.act cur p) (sp, ctx)).2.unparsed =
      cur.addPartTo (p + 1) cur.length ctx.unparsed ∧
    (acts.foldl (TRequestParseContextHard.act cur p) (sp, ctx)).2.request.flat =
      (s.step q' acts c).req := by
  have hS := H.step hc ht
  obtain ⟨hu, rfl⟩ := acts_unparsed_end ht hend sp p cur ctx
  refine ⟨hu, ?_⟩
  rw [hS.req, hS.curTok_none rfl, FlatRequest.pushOpt_none]

end Sim

/-- How the generated code leaves a chunk, given how the flat machine runs on its bytes. -/
def ExecSpec (cur : TChunk) (ctx : TRequestParseContextHard) :
    FlatRun → TRequestParseContextHard.TExec → Prop
  | .more s, x => ∃ sp ctx', x = .out sp ctx' ∧ ctx'.cs = s.cs ∧ ctx'.unparsed = ctx.unparsed ∧
      Sim s s.cs cur sp cur.length ctx'
  | .error, x => x = .error
  | .done req tail, x => ∃ ctx' p, x = .ret ctx' ∧ ctx'.request.flat = req ∧
      tail = cur.drop (p + 1) ∧ ctx'.unparsed = cur.addPartTo (p + 1) cur.length ctx.unparsed

theorem Sim.exec {s : FlatState} {q : State} {cur : TChunk} {sp p : Nat} {rem : List UInt8}
    {ctx : TRequestParseContextHard} (H : Sim s q cur sp p ctx) (hc : cur.drop p = rem)
    (hp : p ≤ cur.length) :
    ExecSpec cur ctx (s.run rem) (TRequestParseContextHard.exec cur q sp p rem ctx) := by
  induction rem generalizing s q sp p ctx with
  | nil =>
    have hpe : p = cur.length := by
      have := congrArg List.length hc
      rw [List.length_drop, List.length_nil] at this
      omega
    subst hpe
    cases H.cs
    exact ⟨sp, _, rfl, rfl, rfl, H.cs, H.curTok, H.curHdr, H.req, H.le, H.start, H.tok, H.hdr⟩
  | cons c rem ih =>
    have hrem : cur.drop (p + 1) = rem := by rw [← List.tail_drop, hc]; rfl
    have hlt : p < cur.length := by
      by_contra hge
      rw [List.drop_eq_nil_of_le (by omega)] at hc
      cases hc
    cases H.cs
    simp only [FlatState.run, TRequestParseContextHard.exec]
    cases ht : transition s.cs c with
    | none => rfl
    | some qa =>
      obtain ⟨q', acts⟩ := qa
      by_cases hend : .endOfHeaders ∈ acts
      · simp only [hend, if_true]
        obtain ⟨hu, hr⟩ := H.finish hc ht hend
        exact ⟨_, p, rfl, hr, hrem.symm, hu⟩
      · simp only [hend, if_false]
        have := ih (H.step hc ht) hrem hlt
        have hu := acts_unparsed ht hend sp p cur ctx
        revert this
        generalize (s.step q' acts c).run rem = r
        cases r <;> simp only [ExecSpec, hu] <;> exact id

/-! ### Chunk lists -/

/-- Between two chunks the parser's context has the flat machine's state. -/
structure Ready (s : FlatState) (ctx : TRequestParseContextHard) : Prop where
  cs : s.cs = ctx.cs
  curTok : s.curTok = ctx.curTok
  curHdr : s.curHdr = ctx.curHdr
  req : s.req = ctx.request.flat
  tok : ctx.curTok.isSome = ctx.cs.inTok
  hdr : ctx.cs = .key ∨ ctx.cs = .delim → ctx.curHdr.isSome

namespace Ready

variable {s : FlatState} {ctx : TRequestParseContextHard}

theorem init : Ready {} {} := ⟨rfl, rfl, rfl, rfl, rfl, by simp⟩

theorem toSim (H : Ready s ctx) (cur : TChunk) : Sim s ctx.cs cur 0 0 ctx :=
  ⟨H.cs, H.curTok, H.curHdr, by rw [H.req, TChunk.subChunk_self, FlatRequest.pushOpt_nil],
    Nat.le_refl 0, fun _ => rfl, H.tok, H.hdr⟩

/-- At the end of a chunk its part of the open token is saved. -/
theorem of_sim {cur : TChunk} (H : Sim s ctx.cs cur sp cur.length ctx) :
    Ready s (ctx.addPartToTok cur sp cur.length) := by
  unfold addPartToTok
  have hreq := H.req
  split
  · next t ht =>
    refine ⟨H.cs, H.curTok, H.curHdr, ?_, H.tok, H.hdr⟩
    rw [hreq, ht, FlatRequest.pushOpt_some]
    exact (ctx.request.flat_modifyTok t _ (cur.addPartTo_flatten sp cur.length)).symm
  · next ht =>
    refine ⟨H.cs, H.curTok, H.curHdr, ?_, H.tok, H.hdr⟩
    rw [hreq, ht, FlatRequest.pushOpt_none]

end Ready

/-- What `ParseChunk` answers, given how the flat machine runs on the bytes of its list. What it
moves to `Unparsed` are a non-empty part of a chunk and the chunks after it. -/
def ParseSpec (ctx : TRequestParseContextHard) (lst : TChunkList) :
    FlatRun → Except TException (Bool × TRequestParseContextHard) → Prop
  | .more s, x => ∃ ctx', x = .ok (false, ctx') ∧ ctx'.unparsed = ctx.unparsed ∧ Ready s ctx'
  | .error, x => x = .error (.httpParseError 400 "can not parse http request")
  | .done req tail, x => ∃ ctx' u, x = .ok (true, ctx') ∧ ctx'.request.flat = req ∧
      ctx'.unparsed = ctx.unparsed ++ u ∧ u.flatten = tail ∧
      ∃ part rest, u = part ++ rest ∧ (∀ c ∈ part, c ≠ []) ∧ rest <:+ lst

theorem Ready.parseChunk {s : FlatState} {ctx : TRequestParseContextHard} (H : Ready s ctx)
    (lst : TChunkList) : ParseSpec ctx lst (s.run lst.flatten) (ctx.parseChunk lst) := by
  induction lst generalizing s ctx with
  | nil => exact ⟨ctx, rfl, rfl, H⟩
  | cons cur lst ih =>
    have hx := (H.toSim cur).exec rfl (Nat.zero_le _)
    rw [List.drop_zero] at hx
    simp only [List.flatten_cons, FlatState.run_append, TRequestParseContextHard.parseChunk]
    revert hx
    cases s.run cur with
    | error =>
      intro hx
      rw [show TRequestParseContextHard.exec cur ctx.cs 0 0 cur ctx = .error from hx]
      rfl
    | more s' =>
      rintro ⟨sp, ctx', hx, hcs, hu, hsim⟩
      rw [hx]
      have hsim' : Sim s' ctx'.cs cur sp cur.length ctx' := by rw [hcs]; exact hsim
      have := ih (Ready.of_sim hsim')
      have hu' : (ctx'.addPartToTok cur sp cur.length).unparsed = ctx.unparsed := by
        rw [← hu]
        unfold TRequestParseContextHard.addPartToTok
        split <;> rfl
      simp only [FlatRun.append]
      revert this
      cases s'.run lst.flatten with
      | more s'' => simp only [ParseSpec, hu']; exact id
      | error => exact id
      | done req tail =>
        rintro ⟨ctx'', u, h1, h2, h3, h4, part, rest, h5, h6, h7⟩
        exact ⟨ctx'', u, h1, h2, h3.trans (by rw [hu']), h4, part, rest, h5, h6,
          h7.trans (List.suffix_cons cur lst)⟩
    | done req tail =>
      rintro ⟨ctx', p, hx, hreq, rfl, hu⟩
      rw [hx]
      have hpart : cur.subChunk (p + 1) cur.length = cur.drop (p + 1) := by
        simp [TChunk.subChunk]
      refine ⟨_, (if p + 1 < cur.length then [cur.drop (p + 1)] else []) ++ lst, rfl, hreq, ?_, ?_,
        _, lst, rfl, ?_, List.suffix_cons cur lst⟩
      · simp only [hu, TChunk.addPartTo, hpart]
        split <;> simp
      · split
        · simp
        · next h => simp [List.drop_eq_nil_of_le (Nat.le_of_not_lt h)]
      · intro c hc h0
        split at hc
        · next h =>
          rw [List.mem_singleton.mp hc, List.drop_eq_nil_iff] at h0
          omega
        · cases hc

/-! ### The push parser -/

/-- The headers are being parsed. -/
structure TPushParseContext.InHead (c : TPushParseContext) (s : FlatState) : Prop where
  failed : c.failed = false
  unparsed : c.ctx.unparsed = []
  ready : Ready s c.ctx

/-- What `ParseChunk` of a push parser does, given how the flat machine runs on the bytes of its
list. -/
def TPushParseContext.ParseSpec (lst : TChunkList) :
    FlatRun → Except TException (Bool × TChunkList) × TPushParseContext → Prop
  | .more s, x => x.1 = .ok (false, []) ∧ x.2.InHead s
  | .error, x => x.1 = .error (.httpParseError 400 "can not parse http request")
  | .done req tail, x =>
    ∃ u, x.1 = .ok (true, u) ∧ x.2.failed = false ∧ x.2.ctx.request.flat = req ∧
      u.flatten = tail ∧ ∃ part rest, u = part ++ rest ∧ (∀ c ∈ part, c ≠ []) ∧ rest <:+ lst

theorem TPushParseContext.InHead.parseChunk {c : TPushParseContext} {s : FlatState} (H : c.InHead s)
    (lst : TChunkList) : ParseSpec lst (s.run lst.flatten) (c.parseChunk lst) := by
  have hx := H.ready.parseChunk lst
  rw [TPushParseContext.parseChunk, if_neg (by simp [H.failed])]
  revert hx
  cases s.run lst.flatten with
  | more s' =>
    rintro ⟨ctx', hx, hu, hready⟩
    rw [hx]
    exact ⟨rfl, H.failed, hu.trans H.unparsed, hready⟩
  | error =>
    intro hx
    rw [show c.ctx.parseChunk lst = _ from hx]
    rfl
  | done req tail =>
    rintro ⟨ctx', u, hx, hreq, hu, htail, hparts⟩
    rw [H.unparsed, List.nil_append] at hu
    subst hu
    rw [hx]
    exact ⟨ctx'.unparsed, rfl, H.failed, hreq, htail, hparts⟩

/-! ### Independence of the cut -/

/-- What the caller of the parser learns. -/
def FlatRun.outcome : FlatRun → Except TException (Option (FlatRequest × List UInt8))
  | more _ => .ok none
  | error => .error (.httpParseError 400 "can not parse http request")
  | done req tail => .ok (some (req, tail))

/-- Successive `ParseChunk` calls, one for each list, until one returns `true` or throws: `none`
when all of them return `false`, otherwise the request and everything after the empty line, which is
what was moved to `Unparsed` and the lists that were not passed on. -/
def TRequestParseContextHard.parseLists (ctx : TRequestParseContextHard) :
    List TChunkList → Except TException (Option (FlatRequest × List UInt8))
  | [] => .ok none
  | lst :: ls =>
    match ctx.parseChunk lst with
    | .error e => .error e
    | .ok (true, ctx) => .ok (some (ctx.request.flat, ctx.unparsed.flatten ++ bytesOf ls))
    | .ok (false, ctx) => ctx.parseLists ls

theorem Ready.parseLists {s : FlatState} {ctx : TRequestParseContextHard} (H : Ready s ctx)
    (hu : ctx.unparsed = []) (ls : List TChunkList) :
    ctx.parseLists ls = (s.run (bytesOf ls)).outcome := by
  induction ls generalizing s ctx with
  | nil => rfl
  | cons lst ls ih =>
    have hx := H.parseChunk lst
    rw [bytesOf_cons, FlatState.run_append]
    simp only [TRequestParseContextHard.parseLists]
    revert hx
    cases s.run lst.flatten with
    | more s' =>
      rintro ⟨ctx', hx, hu', H'⟩
      simp only [hx]
      exact ih H' (hu'.trans hu)
    | error =>
      intro hx
      rw [show ctx.parseChunk lst = _ from hx]
      rfl
    | done req tail =>
      rintro ⟨ctx', u, hx, rfl, hu', rfl, -⟩
      simp [hx, hu', hu, FlatRun.append, FlatRun.outcome]

/-- The outcome of parsing does not depend on how the bytes are cut into chunks, lists and calls. -/
theorem parseLists_cut_independent {ls ls' : List TChunkList} (h : bytesOf ls = bytesOf ls') :
    ({} : TRequestParseContextHard).parseLists ls =
      ({} : TRequestParseContextHard).parseLists ls' := by
  rw [Ready.init.parseLists rfl, Ready.init.parseLists rfl, h]

/-- `A\r\nb:  c\r\n\r\nd` in one chunk, and with boundaries inside the delimiter, inside `\r\n`,
around an empty chunk and right after the headers. -/
theorem parseLists_cut_independent_sample :
    ({} : TRequestParseContextHard).parseLists
        [[[65, 13, 10, 98, 58, 32, 32, 99, 13, 10, 13, 10, 100]]] =
      ({} : TRequestParseContextHard).parseLists
        [[[65, 13], [], [10, 98, 58]], [], [[32], [32, 99, 13, 10], [13, 10]], [[100]]] ∧
    ({} : TRequestParseContextHard).parseLists
        [[[65, 13], [], [10, 98, 58]], [], [[32], [32, 99, 13, 10], [13, 10]], [[100]]] =
      .ok (some (⟨[65], [([98], [99])]⟩, [100])) :=
  ⟨parseLists_cut_independent (by decide), by decide⟩

/-! ### Parsing from an input -/

/-- What `Parse` does on an input that follows a steady relation `P` from `xs` on and then ends with
`f`, given how the flat machine runs on `xs`. After a complete block nothing is lost: `Unparsed` and
what the input still hands out are the bytes after the block. -/
def ParseInputSpec {σ : Type} (P : σ → List UInt8 → Prop) (f : Option TException) :
    FlatRun → Except TException TRequestParseContextHard × σ → Prop
  | .done req tail, x => ∃ ctx src rest, x = (.ok ctx, src) ∧ ctx.request.flat = req ∧
      (∀ c ∈ ctx.unparsed, c ≠ []) ∧ tail = ctx.unparsed.flatten ++ rest ∧ P src rest
  | .error, x => x.1 = .error (.httpParseError 400 "can not parse http request")
  | .more _, x => x.1 = .error (f.getD (.httpParseError 400 "incomplete request"))

theorem Ready.parse {σ : Type} [IIoInput σ] {P : σ → List UInt8 → Prop} {f : Option TException}
    (hP : Steady Proper f P) {s : FlatState} {ctx : TRequestParseContextHard} {src : σ}
    (H : Ready s ctx) (hu : ctx.unparsed = []) (h : P src xs) :
    ParseInputSpec P f (s.run xs) (ctx.parse src) := by
  induction hn : xs.length using Nat.strongRecOn generalizing s ctx src xs with
  | ind n ih =>
    rcases hP src xs h with ⟨rfl, src', hr, -⟩ | ⟨l, src', ys, hr, -, hl, rfl, h'⟩
    · cases f with
      | none => simp [ParseInputSpec, FlatState.run, parse_incomplete hr]
      | some e => simp [ParseInputSpec, FlatState.run, parse_error hr]
    · rw [FlatState.run_append, parse_cons hr hl.hasData]
      have hx := H.parseChunk l
      revert hx
      cases s.run l.flatten with
      | more s' =>
        rintro ⟨ctx', hx, hu', H'⟩
        simp only [hx]
        have hpos := List.length_pos_iff.mpr hl.hasData
        rw [List.length_append] at hn
        exact ih ys.length (by omega) H' (hu'.trans hu) h' rfl
      | error =>
        intro hx
        rw [show ctx.parseChunk l = _ from hx]
        rfl
      | done req tail =>
        rintro ⟨ctx', u, hx, rfl, hu', rfl, part, rest, rfl, hpart, hrest⟩
        rw [hu, List.nil_append] at hu'
        simp only [hx]
        refine ⟨ctx', src', ys, rfl, rfl, ?_, by rw [hu'], h'⟩
        rw [hu']
        exact List.forall_mem_append.2 ⟨hpart, fun c hc => hl.2 c (hrest.subset hc)⟩

end Balancer
