import Balancer.Util.Wait

/-!
# The pollers behind `TContPoller`

`util/green/poller.cpp` and `util/network/pollerimpl.h`. `TCombinedPoller` starts with a
`TPollPoller`, which keeps its descriptors in an indexed array for `poll`; when a `Wait` finds more
than 200 of them, they are set one by one in a new poller of the platform, and the old one is
dropped.

A poller of the platform is given by what its system calls do to the registrations in the kernel:
`epoll`, `kqueue` or `select`. The calls of the program succeed, so that they fail only where an
entry exists already or does not exist. What `Wait` reports is left out here: it changes no
registration.
-/

namespace Balancer

open Runs
open Function (update update_apply)

/-- `IPollerFace::TChange`. `data` is a list of `TContPoller`, by its index in `Lists_`. -/
structure TChange where
  fd : Nat
  data : Nat
  flags : UInt16
  deriving DecidableEq, Repr

/-- What is waited for on a descriptor, and the data that are reported with it. -/
structure TRegistration where
  read : Bool
  write : Bool
  data : Nat
  deriving DecidableEq, Repr

def TRegistration.of (flags : UInt16) (data : Nat) : TRegistration where
  read := flags &&& CONT_POLL_READ ≠ 0
  write := flags &&& CONT_POLL_WRITE ≠ 0
  data := data

/-! ### `TIndexedArray` -/

/-- The elements by their places, and the places in the order of the list `I_`. -/
structure TIndexedArray (τ : Type) where
  v : Nat → Option τ
  i : List Nat
  nodup : i.Nodup
  mem_i : ∀ n, n ∈ i ↔ (v n).isSome

namespace TIndexedArray

variable {τ : Type}

def empty : TIndexedArray τ where
  v _ := none
  i := []
  nodup := List.nodup_nil
  mem_i _ := iff_of_false List.not_mem_nil Bool.false_ne_true

theorem nodup_get (a : TIndexedArray τ) (n : Nat) :
    (if (a.v n).isSome then a.i else n :: a.i).Nodup := by
  split
  · exact a.nodup
  · next h => exact List.nodup_cons.2 ⟨fun hn => h ((a.mem_i n).1 hn), a.nodup⟩

theorem mem_get (a : TIndexedArray τ) (n : Nat) (t : τ) (m : Nat) :
    m ∈ (if (a.v n).isSome then a.i else n :: a.i) ↔ (update a.v n (some t) m).isSome := by
  rw [update_apply]
  by_cases hm : m = n
  · subst hm
    split
    · next h => simpa [a.mem_i] using h
    · simp
  · split <;> simp [hm, a.mem_i]

/-- `(*this)[n] = t`. A new element goes to the front of the list. -/
def set (a : TIndexedArray τ) (n : Nat) (t : τ) : TIndexedArray τ where
  v := update a.v n (some t)
  i := if (a.v n).isSome then a.i else n :: a.i
  nodup := a.nodup_get n
  mem_i := a.mem_get n t

theorem mem_erase (a : TIndexedArray τ) (n m : Nat) :
    m ∈ a.i.erase n ↔ (update a.v n none m).isSome := by
  rw [a.nodup.mem_erase_iff, a.mem_i, update_apply]
  split
  · next h => simp [h]
  · next h => simp [h]

/-- `Erase(n)` -/
def erase (a : TIndexedArray τ) (n : Nat) : TIndexedArray τ where
  v := update a.v n none
  i := a.i.erase n
  nodup := a.nodup.erase n
  mem_i := a.mem_erase n

@[simp] theorem v_set (a : TIndexedArray τ) (n : Nat) (t : τ) :
    (a.set n t).v = update a.v n (some t) := rfl

@[simp] theorem v_erase (a : TIndexedArray τ) (n : Nat) : (a.erase n).v = update a.v n none := rfl

/-- `Size()` -/
def size (a : TIndexedArray τ) : Nat := a.i.length

/-- From `Begin()` to `End()`. -/
def toList (a : TIndexedArray τ) : List τ := a.i.filterMap a.v

end TIndexedArray

/-! ### `TPollPoller` -/

/-- `S_`; every element is at the place of its descriptor. -/
structure TPollPoller where
  s : TIndexedArray TChange
  entry : ∀ n c, s.v n = some c → c.fd = n ∧ c.flags ≠ 0

namespace TPollPoller

def empty : TPollPoller where
  s := .empty
  entry _ _ h := absurd h.symm (Option.some_ne_none _)

theorem entry_set (p : TPollPoller) {c : TChange} (hc : c.flags ≠ 0) (n : Nat) (c' : TChange)
    (h : (p.s.set c.fd c).v n = some c') : c'.fd = n ∧ c'.flags ≠ 0 := by
  rw [TIndexedArray.v_set, update_apply] at h
  split at h
  · next hn =>
    cases h
    exact ⟨hn.symm, hc⟩
  · exact p.entry n c' h

theorem entry_erase (p : TPollPoller) (fd n : Nat) (c' : TChange)
    (h : (p.s.erase fd).v n = some c') : c'.fd = n ∧ c'.flags ≠ 0 := by
  rw [TIndexedArray.v_erase, update_apply] at h
  split at h
  · cases h
  · exact p.entry n c' h

def set (p : TPollPoller) (c : TChange) : TPollPoller :=
  if hc : c.flags ≠ 0 then ⟨p.s.set c.fd c, p.entry_set hc⟩
  else ⟨p.s.erase c.fd, p.entry_erase c.fd⟩

def registered (p : TPollPoller) (fd : Nat) : Option TRegistration :=
  (p.s.v fd).map fun c => .of c.flags c.data

end TPollPoller

/-! ### Pollers of the platform -/

/-- A `TPollerImplBase`, with the registrations that its calls have made in the kernel. `setImpl`
may throw. -/
structure TPollerImpl (κ : Type) where
  init : κ
  setImpl : (data fd : Nat) → (what : UInt16) → κ → Option κ
  remove : (fd : Nat) → κ → κ
  registered : κ → Nat → Option TRegistration
  registered_init : ∀ fd, registered init fd = none
  registered_setImpl : ∀ data fd what d, ∃ d', setImpl data fd what d = some d' ∧
    registered d' = update (registered d) fd (some (.of what data))
  registered_remove : ∀ fd d, registered (remove fd d) = update (registered d) fd none

/-- `TGenericPoller::Set` -/
def TPollerImpl.set {κ : Type} (I : TPollerImpl κ) (c : TChange) (d : κ) : Option κ :=
  if c.flags ≠ 0 then I.setImpl c.data c.fd c.flags d else some (I.remove c.fd d)

namespace TEpollPoller

def EPOLLIN : UInt32 := 1
def EPOLLOUT : UInt32 := 4

structure TEpollEvent where
  events : UInt32
  data : Nat

inductive TEpollCtl where
  | add
  | mod
  | del

/-- The descriptors of an epoll instance. -/
abbrev TFds := Nat → Option TEpollEvent

/-- `epoll_ctl`; `none` if it returns -1. -/
def epollCtl (op : TEpollCtl) (fd : Nat) (e : TEpollEvent) (fds : TFds) : Option TFds :=
  match op with
  | .add => if (fds fd).isSome then none else some (update fds fd (some e))
  | .mod => if (fds fd).isSome then some (update fds fd (some e)) else none
  | .del => if (fds fd).isSome then some (update fds fd none) else none

def calcWhat (w : UInt16) : UInt32 :=
  (if w &&& CONT_POLL_READ ≠ 0 then EPOLLIN else 0) |||
    (if w &&& CONT_POLL_WRITE ≠ 0 then EPOLLOUT else 0)

def setImpl (data fd : Nat) (what : UInt16) (fds : TFds) : Option TFds :=
  let e : TEpollEvent := ⟨calcWhat what, data⟩
  (epollCtl .add fd e fds).or (epollCtl .mod fd e fds)

def remove (fd : Nat) (fds : TFds) : TFds := (epollCtl .del fd ⟨0, 0⟩ fds).getD fds

def registration (e : TEpollEvent) : TRegistration where
  read := e.events &&& EPOLLIN ≠ 0
  write := e.events &&& EPOLLOUT ≠ 0
  data := e.data

def registered (fds : TFds) (fd : Nat) : Option TRegistration := (fds fd).map registration

theorem registration_calcWhat (what : UInt16) (data : Nat) :
    registration ⟨calcWhat what, data⟩ = .of what data := by
  unfold registration TRegistration.of calcWhat
  by_cases hr : what &&& CONT_POLL_READ = 0 <;> by_cases hw : what &&& CONT_POLL_WRITE = 0 <;>
    simp [hr, hw] <;> decide

theorem registered_update (fds : TFds) (fd : Nat) (e : Option TEpollEvent) :
    registered (update fds fd e) = update (registered fds) fd (e.map registration) := by
  funext n
  simp only [registered, update_apply]
  split <;> rfl

/-- A descriptor that is registered already is modified. -/
theorem setImpl_eq (data fd : Nat) (what : UInt16) (fds : TFds) :
    setImpl data fd what fds = some (update fds fd (some ⟨calcWhat what, data⟩)) := by
  unfold setImpl epollCtl
  by_cases h : (fds fd).isSome <;> simp [h]

theorem remove_eq (fd : Nat) (fds : TFds) : remove fd fds = update fds fd none := by
  unfold remove epollCtl
  simp only
  split
  · rfl
  · next h =>
    have hnone : fds fd = none := by simpa using h
    rw [Option.getD_none, ← hnone, Function.update_eq_self]

theorem registered_setImpl (data fd : Nat) (what : UInt16) (fds : TFds) :
    ∃ fds', setImpl data fd what fds = some fds' ∧
      registered fds' = update (registered fds) fd (some (.of what data)) :=
  ⟨_, setImpl_eq .., by rw [registered_update, Option.map_some, registration_calcWhat]⟩

theorem registered_remove (fd : Nat) (fds : TFds) :
    registered (remove fd fds) = update (registered fds) fd none := by
  rw [remove_eq, registered_update, Option.map_none]

def impl : TPollerImpl TFds where
  init _ := none
  setImpl := setImpl
  remove := remove
  registered := registered
  registered_init _ := rfl
  registered_setImpl := registered_setImpl
  registered_remove := registered_remove

end TEpollPoller

namespace TKqueuePoller

inductive TFilter where
  | read
  | write
  deriving DecidableEq

/-- A filter of a kqueue. -/
structure TNote where
  enabled : Bool
  udata : Nat

abbrev TNotes := TFilter → Nat → Option TNote

inductive TKevent where
  | add (filter : TFilter) (fd : Nat) (enable : Bool) (udata : Nat)
  | delete (filter : TFilter) (fd : Nat)

/-- One change; `none` if it is refused. -/
def change (notes : TNotes) : TKevent → Option TNotes
  | .add filter fd enable udata =>
    some (update notes filter (update (notes filter) fd (some ⟨enable, udata⟩)))
  | .delete filter fd =>
    if (notes filter fd).isSome then
      some (update notes filter (update (notes filter) fd none))
    else none

/-- `Kevent` without a list of events: the changes are made in order, up to one that is refused, and
then it returns -1. -/
def kevent (notes : TNotes) : List TKevent → Bool × TNotes
  | [] => (true, notes)
  | c :: cs =>
    match change notes c with
    | none => (false, notes)
    | some notes => kevent notes cs

def setImpl (data fd : Nat) (what : UInt16) (notes : TNotes) : Option TNotes :=
  match kevent notes [.add .read fd (what &&& CONT_POLL_READ ≠ 0) data,
      .add .write fd (what &&& CONT_POLL_WRITE ≠ 0) data] with
  | (true, notes) => some notes
  | (false, _) => none

def remove (fd : Nat) (notes : TNotes) : TNotes :=
  (kevent notes [.delete .read fd, .delete .write fd]).2

/-- Both filters of a descriptor are there, with the same data. -/
def registered (notes : TNotes) (fd : Nat) : Option TRegistration :=
  match notes .read fd, notes .write fd with
  | some r, some w => if r.udata = w.udata then some ⟨r.enabled, w.enabled, r.udata⟩ else none
  | _, _ => none

theorem registered_setImpl (data fd : Nat) (what : UInt16) (notes : TNotes) :
    ∃ notes', setImpl data fd what notes = some notes' ∧
      registered notes' = update (registered notes) fd (some (.of what data)) := by
  refine ⟨_, rfl, ?_⟩
  funext n
  simp only [registered, update_apply, reduceCtorEq, if_false, if_true]
  by_cases hn : n = fd
  · simp only [hn, if_true]
    rfl
  · simp only [hn, if_false]

theorem registered_remove (fd : Nat) (notes : TNotes) :
    registered (remove fd notes) = update (registered notes) fd none := by
  funext n
  rw [update_apply]
  rcases hr : notes .read fd with - | r
  · -- the first change is refused, and the descriptor had no read filter
    have hrem : remove fd notes = notes := by simp [remove, kevent, change, hr]
    rw [hrem]
    split
    · next hn => simp [registered, hn, hr]
    · rfl
  · rcases hw : notes .write fd with - | w
    · simp only [remove, kevent, change, hr, hw, Option.isSome_some, if_true, update_apply,
        reduceCtorEq, if_false, Option.isSome_none, Bool.false_eq_true, registered]
      by_cases hn : n = fd <;> simp [hn]
    · simp only [remove, kevent, change, hr, hw, Option.isSome_some, if_true, update_apply,
        reduceCtorEq, if_false, registered]
      by_cases hn : n = fd <;> simp [hn]

def impl : TPollerImpl TNotes where
  init _ _ := none
  setImpl := setImpl
  remove := remove
  registered := registered
  registered_init _ := rfl
  registered_setImpl := registered_setImpl
  registered_remove := registered_remove

end TKqueuePoller

namespace TSelectPoller

structure THandle where
  data : Nat
  filter : UInt16

/-- `Fds_`, from which the sets for `select` are built. -/
abbrev TFds := Nat → Option THandle

def setImpl (data fd : Nat) (what : UInt16) (fds : TFds) : Option TFds :=
  some (update fds fd (some ⟨data, what⟩))

def remove (fd : Nat) (fds : TFds) : TFds := update fds fd none

/-- `TFds::Build` -/
def registered (fds : TFds) (fd : Nat) : Option TRegistration :=
  (fds fd).map fun handle => .of handle.filter handle.data

theorem registered_update (fds : TFds) (fd : Nat) (h : Option THandle) :
    registered (update fds fd h) =
      update (registered fds) fd (h.map fun handle => .of handle.filter handle.data) := by
  funext n
  simp only [registered, update_apply]
  split <;> rfl

def impl : TPollerImpl TFds where
  init _ := none
  setImpl := setImpl
  remove := remove
  registered := registered
  registered_init _ := rfl
  registered_setImpl _ fd _ fds := ⟨_, rfl, registered_update fds fd _⟩
  registered_remove fd fds := registered_update fds fd none

end TSelectPoller

/-! ### `TCombinedPoller` -/

/-- `P_` or `D_` -/
inductive TCombinedPoller (κ : Type) where
  | poll (p : TPollPoller)
  | default (d : κ)

variable {κ : Type} (I : TPollerImpl κ)

/-- `TPollPoller::Build` -/
def TPollPoller.build (p : TPollPoller) (d : κ) : Option κ :=
  p.s.toList.foldlM (fun d c => I.set c d) d

namespace TCombinedPoller

def set (c : TChange) : TCombinedPoller κ → Option (TCombinedPoller κ)
  | .poll p => some (.poll (p.set c))
  | .default d => (I.set c d).map .default

/-- `Wait`, up to the call of the poller that is active then. -/
def wait : TCombinedPoller κ → Option (TCombinedPoller κ)
  | .poll p => if p.s.size > 200 then (p.build I I.init).map .default else some (.poll p)
  | .default d => some (.default d)

/-- The registrations with the poller that is active. -/
def registered : TCombinedPoller κ → Nat → Option TRegistration
  | .poll p => p.registered
  | .default d => I.registered d

end TCombinedPoller

/-! ### `TContPoller` over it -/

/-- `Lists_` and `P_`. -/
structure TContPollerImpl (α κ : Type) where
  lists : Nat → List (IPollEvent α) := fun _ => []
  p : TCombinedPoller κ := .poll .empty

inductive TContPollerCall (α : Type) where
  | schedule (ev : IPollEvent α)
  | remove (ev : IPollEvent α)
  | wait

namespace TContPollerImpl

variable {α : Type} [DecidableEq α]

/-- The list of a descriptor changes, and `P_` is told when its flags change. -/
def update (s : TContPollerImpl α κ) (fd : Nat) (lst : List (IPollEvent α)) :
    Option (TContPollerImpl α κ) :=
  let oldFlags := pollFlags (s.lists fd)
  let newFlags := pollFlags lst
  let lists := Function.update s.lists fd lst
  if newFlags ≠ oldFlags then (s.p.set I ⟨fd, fd, newFlags⟩).map fun p => { lists, p }
  else some { s with lists }

def schedule (s : TContPollerImpl α κ) (ev : IPollEvent α) : Option (TContPollerImpl α κ) :=
  s.update I ev.fd (ev :: (s.lists ev.fd).erase ev)

def remove (s : TContPollerImpl α κ) (ev : IPollEvent α) : Option (TContPollerImpl α κ) :=
  s.update I ev.fd ((s.lists ev.fd).erase ev)

def wait (s : TContPollerImpl α κ) : Option (TContPollerImpl α κ) :=
  (s.p.wait I).map fun p => { s with p }

/-- Any calls; there is no step for a call that throws. -/
def system : System (TContPollerImpl α κ) (TContPollerCall α) where
  step s
    | .schedule ev => s.schedule I ev
    | .remove ev => s.remove I ev
    | .wait => s.wait I

end TContPollerImpl

end Balancer
