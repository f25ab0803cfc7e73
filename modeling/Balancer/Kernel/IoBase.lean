import Balancer.Kernel.Chunks
import Balancer.Theory.Interaction

/-!
# Exceptions, inputs and outputs

`kernel/errors.h`, `kernel/iobase.h` and the small wrappers around inputs and outputs: `null.h`,
`precharge.h`, `concat.h`, `rewind.h`, `limitio.h`, `countio.h`. An `IIoInput` is a source of chunk
lists and an `IIoOutput` a sink of chunk lists; `Recv` clears the list it is given, so what `DoRecv`
leaves in it is the whole answer, and the empty list is the end of the stream.

The assertion of `IIoOutput::Send` (no empty chunks) is compiled out of release builds and is not
part of the model of `Send`.
-/

namespace Balancer

open BlockIO Source SizedSource

/-- The exceptions that the modelled code throws or tells apart. -/
inductive TException where
  | httpError (code : Nat) (what : String)
  | httpParseError (code : Nat) (what : String)
  | systemError (status : Int) (what : String)
  | streamError (what : String)
  /-- Any other class derived from `yexception` or `std::exception`. -/
  | yexception (what : String)
  deriving DecidableEq, Repr

namespace TException

/-- `catch (const THttpError&)`: the code. `THttpParseError` derives from `THttpError`. -/
def asHttpError : TException → Option Nat
  | httpError code _ | httpParseError code _ => some code
  | _ => none

/-- `catch (const TSystemError&)`: the status. -/
def asSystemError : TException → Option Int
  | systemError status _ => some status
  | _ => none

end TException

abbrev IIoInput (σ : Type) := Source σ TException UInt8
abbrev ISizedInput (σ : Type) := SizedSource σ TException UInt8
abbrev IIoOutput (τ : Type) := Sink τ TException UInt8

/-- A socket's incoming side, as the server sees it: the chunk lists that its `Recv` calls
return. -/
abbrev TScript := Script TException UInt8

/-- A socket's outgoing side, as the server sees it. -/
abbrev TWire := Wire TException UInt8

/-- The behaviour of a module that was given an input and an output. -/
abbrev TBehaviour := Prog TException UInt8

/-- The bytes of a sequence of chunk lists. -/
def bytesOf (ls : List TChunkList) : List UInt8 := ls.flatten.flatten

@[simp] theorem bytesOf_nil : bytesOf [] = [] := rfl

@[simp] theorem bytesOf_cons (l : TChunkList) (ls : List TChunkList) :
    bytesOf (l :: ls) = l.flatten ++ bytesOf ls := by
  simp [bytesOf]

@[simp] theorem bytesOf_append (ls ls' : List TChunkList) :
    bytesOf (ls ++ ls') = bytesOf ls ++ bytesOf ls' := by
  simp [bytesOf]

/-! ### `TNullStream` -/

structure TNullStream where
  deriving DecidableEq

instance : ISizedInput TNullStream where
  recv s := (.ok [], s)
  turns _ := 0
  turns_le _ := Nat.le_refl _
  turns_lt h hl := absurd (Except.ok.inj h).symm hl
  size _ := 0
  size_le _ := Nat.le_refl _
  size_recv h := by simp [← Except.ok.inj h]

/-! ### `TOwnedInput` -/

structure TOwnedInput where
  chunks : TChunkList

instance : ISizedInput TOwnedInput where
  recv s := (.ok s.chunks, ⟨[]⟩)
  turns s := if s.chunks = [] then 0 else 1
  turns_le s := by simp
  turns_lt {s l} h hl := by
    cases Except.ok.inj h
    simp [hl]
  size s := s.chunks.flatten.length
  size_le s := by simp
  size_recv {s l} h := by
    cases Except.ok.inj h
    simp

/-! ### `TConcatInput` -/

/-- The stream `F_` points to: the first one, the second one, or `TNullStream`. -/
inductive TConcatStage where
  | first
  | second
  | null
  deriving DecidableEq, Repr

structure TConcatInput (φ σ : Type) where
  f : φ
  s : σ
  stage : TConcatStage := .first

namespace TConcatInput

variable {φ σ : Type}

def doRecv [IIoInput φ] [IIoInput σ] (c : TConcatInput φ σ) :
    Except TException TChunkList × TConcatInput φ σ :=
  match c.stage with
  | .first =>
    let (r, f) := recv c.f
    match r with
    | .ok [] =>
      let (r, s) := recv c.s
      (r, { f, s, stage := .second })
    | r => (r, { c with f })
  | .second =>
    let (r, s) := recv c.s
    match r with
    | .ok [] => (.ok [], { c with s, stage := .null })
    | r => (r, { c with s })
  | .null => (.ok [], c)

section
variable [IIoInput φ] [IIoInput σ] {f f' : φ} {s s' : σ}

theorem doRecv_switch (h : recv f = (.ok [], f')) :
    doRecv ⟨f, s, .first⟩ = ((recv s).1, ⟨f', (recv s).2, .second⟩) := by
  simp [doRecv, h]

theorem doRecv_first (h : (recv f).1 ≠ .ok []) :
    doRecv ⟨f, s, .first⟩ = ((recv f).1, ⟨(recv f).2, s, .first⟩) := by
  simp only [doRecv]

theorem doRecv_end (h : recv s = (.ok [], s')) :
    doRecv ⟨f, s, .second⟩ = (.ok [], ⟨f, s', .null⟩) := by
  simp [doRecv, h]

theorem doRecv_second (h : (recv s).1 ≠ .ok []) :
    doRecv ⟨f, s, .second⟩ = ((recv s).1, ⟨f, (recv s).2, .second⟩) := by
  simp only [doRecv]

/-- One `Recv`, by the stream that answers it: the first one, the second one after the end of the
first, the second one, or none of them. -/
theorem doRecv_cases (c : TConcatInput φ σ) :
    (c.stage = .first ∧ (recv c.f).1 ≠ .ok [] ∧
      doRecv c = ((recv c.f).1, ⟨(recv c.f).2, c.s, .first⟩)) ∨
    (c.stage = .first ∧ (recv c.f).1 = .ok [] ∧
      doRecv c = ((recv c.s).1, ⟨(recv c.f).2, (recv c.s).2, .second⟩)) ∨
    (c.stage = .second ∧ (recv c.s).1 ≠ .ok [] ∧
      doRecv c = ((recv c.s).1, ⟨c.f, (recv c.s).2, .second⟩)) ∨
    (c.stage = .second ∧ (recv c.s).1 = .ok [] ∧
      doRecv c = (.ok [], ⟨c.f, (recv c.s).2, .null⟩)) ∨
    (c.stage = .null ∧ doRecv c = (.ok [], c)) := by
  obtain ⟨f, s, _ | _ | _⟩ := c
  · by_cases h : (recv f).1 = .ok []
    · exact .inr (.inl ⟨rfl, h, doRecv_switch (Prod.ext h rfl)⟩)
    · exact .inl ⟨rfl, h, doRecv_first h⟩
  · by_cases h : (recv s).1 = .ok []
    · exact .inr (.inr (.inr (.inl ⟨rfl, h, doRecv_end (Prod.ext h rfl)⟩)))
    · exact .inr (.inr (.inl ⟨rfl, h, doRecv_second h⟩))
  · exact .inr (.inr (.inr (.inr ⟨rfl, rfl⟩)))

end

instance [IIoInput φ] [IIoInput σ] : IIoInput (TConcatInput φ σ) where
  recv := doRecv
  turns c := match c.stage with
    | .first => Source.turns c.f + Source.turns c.s
    | .second => Source.turns c.s
    | .null => 0
  turns_le c := by
    have hf := turns_le c.f
    have hs := turns_le c.s
    rcases doRecv_cases c with ⟨h, _, e⟩ | ⟨h, _, e⟩ | ⟨h, _, e⟩ | ⟨h, _, e⟩ | ⟨h, e⟩ <;>
      simp only [e, h] <;> omega
  turns_lt {c l} hr hl := by
    have hf := turns_le c.f
    rcases doRecv_cases c with ⟨h, _, e⟩ | ⟨h, _, e⟩ | ⟨h, _, e⟩ | ⟨h, _, e⟩ | ⟨h, e⟩ <;>
      rw [e] at hr ⊢ <;> simp only [h]
    · have := turns_lt hr hl; omega
    · have := turns_lt hr hl; omega
    · exact turns_lt hr hl
    · exact absurd (Except.ok.inj hr).symm hl
    · exact absurd (Except.ok.inj hr).symm hl

theorem recv_eq [IIoInput φ] [IIoInput σ] (c : TConcatInput φ σ) : recv c = doRecv c := rfl

instance [ISizedInput φ] [ISizedInput σ] : ISizedInput (TConcatInput φ σ) where
  size c := match c.stage with
    | .first => SizedSource.size c.f + SizedSource.size c.s
    | .second => SizedSource.size c.s
    | .null => 0
  size_le c := by
    have hf := size_le c.f
    have hs := size_le c.s
    rcases doRecv_cases c with ⟨h, _, e⟩ | ⟨h, _, e⟩ | ⟨h, _, e⟩ | ⟨h, _, e⟩ | ⟨h, e⟩ <;>
      simp only [recv_eq, e, h] <;> omega
  size_recv {c l} hr := by
    have hf := size_le c.f
    rw [recv_eq] at hr ⊢
    rcases doRecv_cases c with ⟨h, _, e⟩ | ⟨h, _, e⟩ | ⟨h, _, e⟩ | ⟨h, _, e⟩ | ⟨h, e⟩ <;>
      rw [e] at hr ⊢ <;> simp only [h]
    · have := size_recv hr; omega
    · have := size_recv hr; omega
    · exact size_recv hr
    · simp [← Except.ok.inj hr]
    · simp [← Except.ok.inj hr]

end TConcatInput

/-! ### `TRewindAbleInput` -/

structure TRewindAbleInput (σ : Type) where
  old : TChunkList := []
  tmp : TChunkList := []
  slave : σ

namespace TRewindAbleInput

variable {σ : Type}

def rewind (r : TRewindAbleInput σ) : TRewindAbleInput σ :=
  { r with old := r.old ++ r.tmp, tmp := [] }

def doRecv [IIoInput σ] (r : TRewindAbleInput σ) :
    Except TException TChunkList × TRewindAbleInput σ :=
  if r.old = [] then
    match recv r.slave with
    | (.error e, slave) => (.error e, { r with slave })
    | (.ok tmp, slave) => (.ok tmp, { r with slave, tmp := r.tmp ++ tmp })
  else
    (.ok r.old, { r with old := [], tmp := r.tmp ++ r.old })

section
variable [IIoInput σ] {r : TRewindAbleInput σ}

theorem doRecv_old (h : r.old ≠ []) :
    r.doRecv = (.ok r.old, ⟨[], r.tmp ++ r.old, r.slave⟩) := by
  simp [doRecv, h]

theorem doRecv_ok (h : r.old = []) (hr : (recv r.slave).1 = .ok l) :
    r.doRecv = (.ok l, ⟨[], r.tmp ++ l, (recv r.slave).2⟩) := by
  simp only [doRecv, h, if_pos]
  rw [show recv r.slave = (.ok l, (recv r.slave).2) from Prod.ext hr rfl]

theorem doRecv_error (h : r.old = []) (hr : (recv r.slave).1 = .error e) :
    r.doRecv = (.error e, ⟨[], r.tmp, (recv r.slave).2⟩) := by
  simp only [doRecv, h, if_pos]
  rw [show recv r.slave = (.error e, (recv r.slave).2) from Prod.ext hr rfl]

end

instance [IIoInput σ] : IIoInput (TRewindAbleInput σ) where
  recv := doRecv
  turns r := (if r.old = [] then 0 else 1) + Source.turns r.slave
  turns_le r := by
    have hs := turns_le r.slave
    by_cases h : r.old = []
    · cases hr : (recv r.slave).1 with
      | ok l => rw [doRecv_ok h hr]; simp [h, hs]
      | error e => rw [doRecv_error h hr]; simp [h, hs]
    · rw [doRecv_old h]; simp
  turns_lt {r l} hr hl := by
    by_cases h : r.old = []
    · cases hs : (recv r.slave).1 with
      | ok l' =>
        rw [doRecv_ok h hs] at hr ⊢
        cases Except.ok.inj hr
        simpa [h] using turns_lt hs hl
      | error e => rw [doRecv_error h hs] at hr; cases hr
    · rw [doRecv_old h]; simp [h]

theorem recv_eq [IIoInput σ] (r : TRewindAbleInput σ) : recv r = doRecv r := rfl

end TRewindAbleInput

/-! ### `TLengthLimitedInput` -/

/-- `TErr::OnErr()` is `onErr`: the exception it throws, or nothing. -/
structure TLengthLimitedInput (σ : Type) where
  s : σ
  l : Nat
  onErr : Option TException

namespace TLengthLimitedInput

variable {σ : Type}

def doRecv [IIoInput σ] (c : TLengthLimitedInput σ) :
    Except TException TChunkList × TLengthLimitedInput σ :=
  if c.l = 0 then (ended c.onErr, c)
  else
    match recv c.s with
    | (.error e, s) => (.error e, { c with s })
    | (.ok lst, s) =>
      let lst := TChunkList.cut c.l lst
      (.ok lst, { c with s, l := c.l - TChunkList.fullLength lst })

section
variable [IIoInput σ] {c : TLengthLimitedInput σ}

theorem doRecv_zero (h : c.l = 0) : c.doRecv = (ended c.onErr, c) := by
  simp [doRecv, h]

theorem doRecv_ok {lst : TChunkList} (h : c.l ≠ 0) (hr : (recv c.s).1 = .ok lst) :
    c.doRecv = (.ok (TChunkList.cut c.l lst),
      ⟨(recv c.s).2, c.l - TChunkList.fullLength (TChunkList.cut c.l lst), c.onErr⟩) := by
  simp only [doRecv, h, if_neg, not_false_eq_true]
  rw [show recv c.s = (.ok lst, (recv c.s).2) from Prod.ext hr rfl]

theorem doRecv_error (h : c.l ≠ 0) (hr : (recv c.s).1 = .error e) :
    c.doRecv = (.error e, ⟨(recv c.s).2, c.l, c.onErr⟩) := by
  simp only [doRecv, h, if_neg, not_false_eq_true]
  rw [show recv c.s = (.error e, (recv c.s).2) from Prod.ext hr rfl]

end

instance [IIoInput σ] : IIoInput (TLengthLimitedInput σ) where
  recv := doRecv
  turns c := Source.turns c.s
  turns_le c := by
    by_cases h : c.l = 0
    · simp [doRecv_zero h]
    · have hs := turns_le c.s
      cases hr : (recv c.s).1 with
      | ok l => simpa [doRecv_ok h hr] using hs
      | error e => simpa [doRecv_error h hr] using hs
  turns_lt {c l} hr hl := by
    by_cases h : c.l = 0
    · rw [doRecv_zero h] at hr
      cases hc : c.onErr with
      | none => rw [hc] at hr; exact absurd (Except.ok.inj hr).symm hl
      | some e => rw [hc] at hr; cases hr
    · cases hs : (recv c.s).1 with
      | ok l' =>
        rw [doRecv_ok h hs] at hr ⊢
        cases Except.ok.inj hr
        exact turns_lt hs fun h0 => hl (TChunkList.split_fst_eq_nil_iff.mpr h0)
      | error e => rw [doRecv_error h hs] at hr; cases hr

theorem recv_eq [IIoInput σ] (c : TLengthLimitedInput σ) : recv c = doRecv c := rfl

end TLengthLimitedInput

/-! ### `TCountOutput` -/

structure TCountOutput (τ : Type) where
  slave : τ
  written : Nat := 0

namespace TCountOutput

variable {τ : Type}

/-- `Written_ += Send(Slave_, lst)`: nothing is added when the slave's `Send` throws. -/
def doSend [IIoOutput τ] (c : TCountOutput τ) (lst : TChunkList) :
    Except TException Unit × TCountOutput τ :=
  match Sink.send c.slave lst with
  | (.error e, slave) => (.error e, { c with slave })
  | (.ok (), slave) => (.ok (), { slave, written := c.written + lst.fullLength })

instance [IIoOutput τ] : IIoOutput (TCountOutput τ) where
  send := doSend

theorem send_eq [IIoOutput τ] (c : TCountOutput τ) (lst : TChunkList) :
    Sink.send c lst = c.doSend lst := rfl

end TCountOutput

end Balancer
