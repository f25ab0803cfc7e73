import Mathlib

/-!
# Coroutines and the poller

`util/green/impl.h`. A coroutine is a number, `Running()` is `current`, and what a coroutine keeps
on its stack is left to the code that runs in it. Control is handed over only where `ExecuteEvent`
switches to the scheduler; for a coroutine that has been cancelled it does not, it returns at once.

`TContPoller` keeps a list of events for every descriptor number and tells the poller behind it the
union of their flags whenever that changes.
-/

namespace Balancer

/-! ### Error codes -/

def EINTR : Int := 4
def EIO : Int := 5
def EAGAIN : Int := 11
def EWOULDBLOCK : Int := 11
def EINVAL : Int := 22
def EMFILE : Int := 24
def EPIPE : Int := 32
def ECONNABORTED : Int := 103
def ETIMEDOUT : Int := 110
def ECANCELED : Int := 125

/-- `TCont::IsBlocked` -/
def isBlocked (lasterr : Int) : Bool := lasterr == EAGAIN || lasterr == EWOULDBLOCK

/-! ### `TContExecutor` -/

/-- The executor: the list `Ready_`, the coroutines with an event in `WaitQueue_`, and those whose
`Cancelled_` is set. -/
structure TContExecutor where
  current : Nat
  ready : List Nat := []
  waitQueue : List Nat := []
  cancelled : List Nat := []
  deriving DecidableEq, Repr

/-- How a call of `ExecuteEvent` stands: it has returned, or the scheduler runs. -/
inductive TExecuted where
  | returned (status : Int)
  | switched (e : TContExecutor)
  deriving DecidableEq, Repr

namespace TContExecutor

/-- `Ready_.PushBack`; a coroutine that is in the list already is moved to its end. -/
def scheduleExecution (e : TContExecutor) (c : Nat) : TContExecutor :=
  { e with ready := e.ready.erase c ++ [c] }

/-- `TCont::Cancel` -/
def cancel (e : TContExecutor) (c : Nat) : TContExecutor :=
  if c ∈ e.cancelled then e
  else
    let e := { e with cancelled := c :: e.cancelled }
    if c = e.current then e else e.scheduleExecution c

def abort (e : TContExecutor) : TContExecutor :=
  let e := e.waitQueue.foldl cancel e
  e.ready.foldl cancel e

/-- `RunScheduler`: the first coroutine of `Ready_` goes on. An event that it waits with is
destroyed when it returns from `ExecuteEvent`. -/
def activate (e : TContExecutor) : Option TContExecutor :=
  match e.ready with
  | [] => none
  | c :: ready => some { e with current := c, ready, waitQueue := e.waitQueue.erase c }

/-- `ExecuteEvent` in the running coroutine, up to where it returns or switches. -/
def executeEvent (e : TContExecutor) : TExecuted :=
  if e.current ∈ e.cancelled then .returned ECANCELED
  else .switched { e with waitQueue := e.current :: e.waitQueue, ready := e.ready.erase e.current }

theorem executeEvent_cancelled {e : TContExecutor} (h : e.current ∈ e.cancelled) :
    e.executeEvent = .returned ECANCELED := by
  simp [executeEvent, h]

theorem executeEvent_switched {e : TContExecutor} (h : e.current ∉ e.cancelled) :
    e.executeEvent =
      .switched { e with
        waitQueue := e.current :: e.waitQueue, ready := e.ready.erase e.current } := by
  simp [executeEvent, h]

/-- After `Cancel` the coroutine is marked, and ready unless it was marked before or runs. -/
theorem cancel_cases (e : TContExecutor) (c : Nat) :
    c ∈ (e.cancel c).cancelled ∧ e.cancelled ⊆ (e.cancel c).cancelled ∧
      ((e.cancel c).ready = e.ready ∨ (e.cancel c).ready = e.ready.erase c ++ [c]) := by
  unfold cancel
  split
  · next hc => exact ⟨hc, List.Subset.refl _, .inl rfl⟩
  · simp only
    split
    · exact ⟨List.mem_cons_self, List.subset_cons_self _ _, .inl rfl⟩
    · exact ⟨List.mem_cons_self, List.subset_cons_self _ _, .inr rfl⟩

end TContExecutor

/-! ### `TContPoller` -/

def CONT_POLL_READ : UInt16 := 1
def CONT_POLL_WRITE : UInt16 := 2

/-- An `IPollEvent`, with the object that it belongs to. -/
structure IPollEvent (α : Type) where
  owner : α
  fd : Nat
  what : UInt16
  deriving DecidableEq, Repr

/-- `TPollEventList::Flags` -/
def pollFlags {α : Type} (lst : List (IPollEvent α)) : UInt16 :=
  lst.foldl (fun ret ev => ret ||| ev.what) 0

/-- The lists of the poller, and the flags that were passed last to `P_->Set` for a descriptor: they
are always those of its list. An event is in one place only, in the list of its descriptor. -/
structure TContPoller (α : Type) where
  list : Nat → List (IPollEvent α) := fun _ => []
  set : Nat → UInt16 := fun _ => 0
  nodup : ∀ fd, (list fd).Nodup := by simp
  listed : ∀ fd, ∀ ev ∈ list fd, ev.fd = fd := by simp
  registered : ∀ fd, set fd = pollFlags (list fd) := by simp [pollFlags]

namespace TContPoller

variable {α : Type} [DecidableEq α]

/-- The list of a descriptor changes; `P_` hears of it when the flags change. -/
def update (p : TContPoller α) (fd : Nat) (lst : List (IPollEvent α)) (hnodup : lst.Nodup)
    (hlisted : ∀ ev ∈ lst, ev.fd = fd) : TContPoller α where
  list := Function.update p.list fd lst
  set :=
    if pollFlags lst ≠ pollFlags (p.list fd) then Function.update p.set fd (pollFlags lst)
    else p.set
  nodup fd' := by
    rw [Function.update_apply]
    split
    · exact hnodup
    · exact p.nodup fd'
  listed fd' := by
    rw [Function.update_apply]
    split
    · next h => exact h ▸ hlisted
    · exact p.listed fd'
  registered fd' := by
    rw [Function.update_apply]
    split
    · next h =>
      rw [Function.update_apply]
      split
      · rfl
      · exact p.registered fd'
    · next h =>
      split
      · next hfd =>
        rw [hfd, p.registered]
        exact (not_not.1 h).symm
      · exact p.registered fd'

/-- `PushFront` takes the event out of the list first. -/
def schedule (p : TContPoller α) (ev : IPollEvent α) : TContPoller α :=
  p.update ev.fd (ev :: (p.list ev.fd).erase ev)
    (List.nodup_cons.2 ⟨(p.nodup ev.fd).not_mem_erase, (p.nodup ev.fd).erase ev⟩)
    (List.forall_mem_cons.2 ⟨rfl, fun e he => p.listed ev.fd e (List.mem_of_mem_erase he)⟩)

def remove (p : TContPoller α) (ev : IPollEvent α) : TContPoller α :=
  p.update ev.fd ((p.list ev.fd).erase ev) ((p.nodup ev.fd).erase ev)
    fun e he => p.listed ev.fd e (List.mem_of_mem_erase he)

/-- `WaitForIO`: the events whose `OnPollEvent` is called for a result on `fd`. -/
def delivered (p : TContPoller α) (fd : Nat) (status : Int) (filter : UInt16) :
    List (IPollEvent α) :=
  if status ≠ 0 then p.list fd else (p.list fd).filter fun ev => ev.what &&& filter ≠ 0

variable {p : TContPoller α} {ev ev' : IPollEvent α} {fd : Nat}

theorem mem_schedule : ev' ∈ (p.schedule ev).list fd ↔ fd = ev.fd ∧ ev' = ev ∨ ev' ∈ p.list fd := by
  simp only [schedule, update, Function.update_apply]
  split
  · next h =>
    subst h
    rw [List.mem_cons, (p.nodup _).mem_erase_iff]
    by_cases heq : ev' = ev <;> simp [heq]
  · next h => simp [h]

theorem mem_remove : ev' ∈ (p.remove ev).list fd ↔ ev' ∈ p.list fd ∧ ev' ≠ ev := by
  simp only [remove, update, Function.update_apply]
  split
  · next h =>
    subst h
    rw [(p.nodup _).mem_erase_iff, and_comm]
  · next h =>
    refine ⟨fun hmem => ⟨hmem, ?_⟩, And.left⟩
    rintro rfl
    exact h (p.listed fd _ hmem).symm

theorem mem_schedule_ne (h : ev' ≠ ev) : ev' ∈ (p.schedule ev).list fd ↔ ev' ∈ p.list fd := by
  rw [mem_schedule]
  exact or_iff_right fun hev => h hev.2

theorem mem_remove_ne (h : ev' ≠ ev) : ev' ∈ (p.remove ev).list fd ↔ ev' ∈ p.list fd := by
  rw [mem_remove]
  exact and_iff_left h

/-- An event that is taken out and put back is in its list as before. -/
theorem mem_reschedule (h : ev ∈ p.list ev.fd) :
    ev' ∈ ((p.remove ev).schedule ev).list fd ↔ ev' ∈ p.list fd := by
  by_cases heq : ev' = ev
  · subst heq
    rw [mem_schedule]
    constructor
    · rintro (⟨rfl, -⟩ | hev)
      · exact h
      · exact (mem_remove.1 hev).1
    · intro hev
      exact .inl ⟨(p.listed fd _ hev).symm, rfl⟩
  · rw [mem_schedule_ne heq, mem_remove_ne heq]

omit [DecidableEq α] in
theorem mem_of_delivered {status : Int} {filter : UInt16} (h : ev ∈ p.delivered fd status filter) :
    ev ∈ p.list fd := by
  unfold delivered at h
  split at h
  · exact h
  · exact List.mem_of_mem_filter h

end TContPoller

end Balancer
