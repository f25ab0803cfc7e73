import Balancer.Kernel.Http
import Balancer.Kernel.Regexp
import Balancer.Theory.Fallible
import Balancer.Theory.HttpMessage

/-!
# The regexp module

`modules/regexp/module.cpp` with `optvalue.h` and `kernel/config.h`. A request goes to the module of
one of the items, by the regular expressions that match its first line or a header. What Lua gives
as a value, the loader of the modules, `FromString<float>` and pire are parameters. A loaded module
is called by the number of modules that were loaded before it.
-/

namespace Balancer

open Fallible
open Http11 (ascii)

/-- `IConfig::IValue`, by the results of its functions. -/
inductive IValue where
  | mk (asString : Except TException (List UInt8)) (asBool : Except TException Bool)
    (asSubConfig : Except TException (List (List UInt8 × IValue)))

/-- `IConfig`: the keys and values that `ForEach` gives, in this order. -/
abbrev IConfig := List (List UInt8 × IValue)

namespace IValue

def asString : IValue → Except TException (List UInt8)
  | mk s _ _ => s

def asBool : IValue → Except TException Bool
  | mk _ b _ => b

def asSubConfig : IValue → Except TException IConfig
  | mk _ _ c => c

end IValue

/-- A `float` that is not a NaN: `StrToD` does not read one. -/
abbrev TFloat := WithBot (WithTop ℚ)

namespace Regexp

structure TModuleParams where
  mustLoad : List UInt8 → IConfig → Except TException Unit
  fromString : List UInt8 → Except TException TFloat
  pire : TPire

inductive EOptionValue where
  | default
  | false
  | true
  deriving DecidableEq, Repr

def calcOptionValue (value : EOptionValue) (defaultValue : Bool) : Bool :=
  match value with
  | .default => defaultValue
  | .false => Bool.false
  | .true => Bool.true

def optionValue (value : Bool) : EOptionValue := if value then .true else .false

/-- `Priority_` of the default item. -/
def defaultPriority : TFloat := ((-1 : ℚ) : WithTop ℚ)

/-- `Name_ == "default"` -/
def isDefaultName (name : List UInt8) : Bool := name == ascii "default"

/-- A `TItem` while its configuration is read, and how many modules were loaded so far. -/
structure TItemState where
  regexp : List UInt8
  caseInsensitive : EOptionValue := .default
  surround : EOptionValue := .default
  slave : Option Nat := none
  priority : TFloat := ((1 : ℚ) : WithTop ℚ)
  loaded : Nat

/-- `TItem`; `Fsm_` is made where it is glued. -/
structure TItem where
  name : List UInt8
  regexp : List UInt8
  caseInsensitive : EOptionValue
  surround : EOptionValue
  slave : Nat
  priority : TFloat
  priority_default : isDefaultName name → priority = defaultPriority

/-- `DoConsume(key, value)` of `TItem`. -/
def TItemState.consume (env : TModuleParams) (st : TItemState) (key : List UInt8) (value : IValue) :
    Except TException TItemState :=
  if key = ascii "priority" then do
    let priority ← env.fromString (← value.asString)
    return { st with priority }
  else if key = ascii "match" then do
    let regexp ← value.asString
    return { st with regexp }
  else if key = ascii "case_insensitive" then do
    let caseInsensitive ← value.asBool
    return { st with caseInsensitive := optionValue caseInsensitive }
  else if key = ascii "surround" then do
    let surround ← value.asBool
    return { st with surround := optionValue surround }
  else do
    env.mustLoad key (← value.asSubConfig)
    return { st with slave := some st.loaded, loaded := st.loaded + 1 }

namespace TItem

def isDefault (item : TItem) : Bool := isDefaultName item.name

/-- `TItem(name, mp)`, with the number of modules that are loaded then. -/
def make (env : TModuleParams) (loaded : Nat) (name : List UInt8) (config : IConfig) :
    Except TException (TItem × Nat) := do
  let regexp := if isDefaultName name then ascii ".*" else []
  let st ← config.foldlM (fun st kv => st.consume env kv.1 kv.2) { regexp, loaded : TItemState }
  match st.slave with
  | none => .error (.yexception "no module configured")
  | some slave =>
    if st.regexp = [] then .error (.yexception "no regexp configured")
    else
      return ({ name, slave, regexp := st.regexp, caseInsensitive := st.caseInsensitive
                surround := st.surround
                priority := if isDefaultName name then defaultPriority else st.priority
                priority_default := fun h => if_pos h }, st.loaded)

/-- The options of `InitFsm(defaultCaseInsensitive, defaultSurround)`. -/
def options (item : TItem) (defaultCaseInsensitive defaultSurround : Bool) : TFsmOptions where
  caseInsensitive := calcOptionValue item.caseInsensitive defaultCaseInsensitive
  surround := calcOptionValue item.surround defaultSurround

end TItem

/-- A `TModule` while its configuration is read. -/
structure TModuleState where
  items : List TItem := []
  fsmHeader : Option TFsm := none
  caseInsensitive : Bool := false
  surround : Bool := false
  loaded : Nat := 0

/-- `DoConsume(key, value)` of `TModule`. -/
def TModuleState.consume (env : TModuleParams) (st : TModuleState) (key : List UInt8)
    (value : IValue) : Except TException TModuleState :=
  if key = ascii "http_header" then do
    let fsm ← TFsm.compile env.pire (← value.asString) { caseInsensitive := true }
    return { st with fsmHeader := some fsm }
  else if key = ascii "case_insensitive" then do
    let caseInsensitive ← value.asBool
    return { st with caseInsensitive }
  else if key = ascii "surround" then do
    let surround ← value.asBool
    return { st with surround }
  else do
    let (item, loaded) ← TItem.make env st.loaded key (← value.asSubConfig)
    return { st with items := st.items ++ [item], loaded }

/-- `InitFsm()`: `Fsm_` and `Default_`. The first item is not glued to what was in `Fsm_` before. -/
def initFsm (env : TModuleParams) (caseInsensitive surround : Bool) :
    Bool → TFsm → Option TItem → List TItem → Except TException (TFsm × Option TItem)
  | _, fsm, dflt, [] => .ok (fsm, dflt)
  | begin, fsm, dflt, item :: items => do
    let dflt := if item.isDefault then some item else dflt
    let itemFsm ← TFsm.compile env.pire item.regexp (item.options caseInsensitive surround)
    let fsm ← (if begin then .ok itemFsm else TFsm.glue env.pire fsm itemFsm)
    initFsm env caseInsensitive surround false fsm dflt items

/-- The automaton of an item is what pire makes of its regular expression. -/
def Made (env : TModuleParams) (caseInsensitive surround : Bool) (item : TItem) (a : TAutomaton) :
    Prop :=
  env.pire.parse item.regexp (item.options caseInsensitive surround) = .ok a

section InitFsm

variable {env : TModuleParams} {caseInsensitive surround : Bool} {items pre : List TItem}
  {fsm fsm' : TFsm}
  {dflt dflt' : Option TItem} {item : TItem}

theorem made_of_compile (h : TFsm.compile env.pire item.regexp
    (item.options caseInsensitive surround) = .ok fsm) :
    ∃ a, Made env caseInsensitive surround item a ∧ fsm = ⟨[a]⟩ := by
  unfold TFsm.compile at h
  split at h
  · cases h
  · next a ha =>
    cases h
    exact ⟨a, ha, rfl⟩

theorem getLast?_filter_concat (pre : List TItem) (item : TItem) :
    (if item.isDefault then some item else (pre.filter TItem.isDefault).getLast?) =
      ((pre ++ [item]).filter TItem.isDefault).getLast? := by
  rw [List.filter_append, List.filter_singleton]
  cases item.isDefault <;> simp

/-- The loop of `InitFsm`, when `pre` are the items before. -/
theorem initFsm_loop (h : initFsm env caseInsensitive surround false fsm dflt items =
    .ok (fsm', dflt')) (hmade : List.Forall₂ (Made env caseInsensitive surround) pre fsm.scanner)
    (hdflt : dflt = (pre.filter TItem.isDefault).getLast?) :
    List.Forall₂ (Made env caseInsensitive surround) (pre ++ items) fsm'.scanner ∧
      dflt' = ((pre ++ items).filter TItem.isDefault).getLast? := by
  induction items generalizing pre fsm dflt with
  | nil =>
    cases h
    rw [List.append_nil]
    exact ⟨hmade, hdflt⟩
  | cons item items ih =>
    obtain ⟨itemFsm, hitem, h₁⟩ := bind_eq_ok.1 h
    obtain ⟨glued, hglue, h₂⟩ := bind_eq_ok.1 h₁
    obtain ⟨a, ha, rfl⟩ := made_of_compile hitem
    have hscanner : glued.scanner = fsm.scanner ++ [a] := by
      rw [if_neg Bool.false_ne_true] at hglue
      unfold TFsm.glue at hglue
      split at hglue
      · cases hglue
        rfl
      · cases hglue
    have hmade' : List.Forall₂ (Made env caseInsensitive surround) (pre ++ [item]) glued.scanner :=
      hscanner ▸ List.rel_append hmade (.cons ha .nil)
    have hrest := ih h₂ hmade' (hdflt ▸ getLast?_filter_concat pre item)
    rwa [List.append_assoc] at hrest

theorem initFsm_spec (hne : items ≠ [])
    (h : initFsm env caseInsensitive surround true fsm none items = .ok (fsm', dflt')) :
    List.Forall₂ (Made env caseInsensitive surround) items fsm'.scanner ∧
      dflt' = (items.filter TItem.isDefault).getLast? := by
  cases items with
  | nil => exact absurd rfl hne
  | cons item items =>
    obtain ⟨itemFsm, hitem, h₁⟩ := bind_eq_ok.1 h
    obtain ⟨first, hfirst, h₂⟩ := bind_eq_ok.1 h₁
    cases hfirst
    obtain ⟨a, ha, rfl⟩ := made_of_compile hitem
    exact initFsm_loop h₂ (List.Forall₂.cons ha .nil) (getLast?_filter_concat [] item)

end InitFsm

/-! ### Every item has a module of its own -/

section Slaves

variable {env : TModuleParams} {st st' : TItemState} {key : List UInt8} {value : IValue} {n : Nat}

/-- The module of an item was not loaded before the item was read. -/
def TItemState.Own (n : Nat) (st : TItemState) : Prop :=
  n ≤ st.loaded ∧ ∀ slave, st.slave = some slave → n ≤ slave ∧ slave < st.loaded

theorem TItemState.Own.consume (h : st.Own n) (hst : st.consume env key value = .ok st') :
    st'.Own n := by
  unfold TItemState.consume at hst
  split at hst
  · obtain ⟨s, -, hst⟩ := bind_eq_ok.1 hst
    obtain ⟨priority, -, hst⟩ := bind_eq_ok.1 hst
    cases hst
    exact h
  split at hst
  · obtain ⟨regexp, -, hst⟩ := bind_eq_ok.1 hst
    cases hst
    exact h
  split at hst
  · obtain ⟨b, -, hst⟩ := bind_eq_ok.1 hst
    cases hst
    exact h
  split at hst
  · obtain ⟨b, -, hst⟩ := bind_eq_ok.1 hst
    cases hst
    exact h
  · obtain ⟨config, -, hst⟩ := bind_eq_ok.1 hst
    obtain ⟨u, -, hst⟩ := bind_eq_ok.1 hst
    cases hst
    refine ⟨h.1.trans (Nat.le_succ _), fun slave hslave => ?_⟩
    cases hslave
    exact ⟨h.1, Nat.lt_succ_self _⟩

theorem TItem.make_slave {name : List UInt8} {config : IConfig} {item : TItem} {n' : Nat}
    (h : TItem.make env n name config = .ok (item, n')) : n ≤ item.slave ∧ item.slave < n' := by
  unfold TItem.make at h
  obtain ⟨st, hst, h⟩ := bind_eq_ok.1 h
  have hown : st.Own n :=
    foldlM_keeps (fun _ _ _ h => h.consume)
      ⟨Nat.le_refl n, fun _ h => (Option.some_ne_none _ h.symm).elim⟩ hst
  split at h
  · cases h
  · next slave hslave =>
    split at h
    · cases h
    · cases h
      exact hown.2 slave hslave

/-- The modules of the items are loaded one after the other. -/
def TModuleState.Ordered (st : TModuleState) : Prop :=
  (st.items.map TItem.slave).Pairwise (· < ·) ∧ ∀ item ∈ st.items, item.slave < st.loaded

theorem TModuleState.Ordered.consume {st st' : TModuleState} (h : st.Ordered)
    (hst : st.consume env key value = .ok st') : st'.Ordered := by
  unfold TModuleState.consume at hst
  split at hst
  · obtain ⟨s, -, hst⟩ := bind_eq_ok.1 hst
    obtain ⟨fsm, -, hst⟩ := bind_eq_ok.1 hst
    cases hst
    exact h
  split at hst
  · obtain ⟨b, -, hst⟩ := bind_eq_ok.1 hst
    cases hst
    exact h
  split at hst
  · obtain ⟨b, -, hst⟩ := bind_eq_ok.1 hst
    cases hst
    exact h
  · obtain ⟨config, -, hst⟩ := bind_eq_ok.1 hst
    obtain ⟨⟨item, loaded⟩, hitem, hst⟩ := bind_eq_ok.1 hst
    cases hst
    obtain ⟨hle, hlt⟩ := TItem.make_slave hitem
    have hbefore : ∀ other ∈ st.items, other.slave < item.slave :=
      fun other hother => (h.2 other hother).trans_le hle
    refine ⟨?_, List.forall_mem_append.2 ⟨fun other hother => (hbefore other hother).trans hlt,
      List.forall_mem_singleton.2 hlt⟩⟩
    · rw [List.map_append, List.map_singleton, List.pairwise_append]
      refine ⟨h.1, List.pairwise_singleton _ _, fun a ha b hb => ?_⟩
      obtain ⟨other, hother, rfl⟩ := List.mem_map.1 ha
      rw [List.mem_singleton.1 hb]
      exact hbefore other hother

end Slaves

/-- `TModule`: the scanner has the automata of the items, and the items have different modules. -/
structure TModule (env : TModuleParams) where
  items : List TItem
  fsm : TFsm
  fsmHeader : Option TFsm
  caseInsensitive : Bool
  surround : Bool
  dflt : Option TItem
  made : List.Forall₂ (Made env caseInsensitive surround) items fsm.scanner
  dflt_eq : dflt = (items.filter TItem.isDefault).getLast?
  slaves : (items.map TItem.slave).Pairwise (· < ·)

namespace TModule

variable {env : TModuleParams}

/-- `TModule(mp)` -/
def make (env : TModuleParams) (config : IConfig) : Except TException (TModule env) :=
  match hst : config.foldlM (fun st kv => st.consume env kv.1 kv.2) ({} : TModuleState) with
  | .error e => .error e
  | .ok st =>
    if hne : st.items = [] then .error (.yexception "no modules configured")
    else
      match hinit : initFsm env st.caseInsensitive st.surround true TFsm.none none st.items with
      | .error e => .error e
      | .ok (fsm, dflt) =>
        have hordered : st.Ordered :=
          foldlM_keeps (fun _ _ _ h => h.consume)
            ⟨List.Pairwise.nil, fun _ h => absurd h List.not_mem_nil⟩ hst
        .ok { items := st.items, fsm, fsmHeader := st.fsmHeader
              caseInsensitive := st.caseInsensitive, surround := st.surround, dflt
              made := (initFsm_spec hne hinit).1, dflt_eq := (initFsm_spec hne hinit).2
              slaves := hordered.1 }

/-- The loop of `SelectHandle`; `item` is the one that is kept. -/
def selectItem (items : List TItem) : Option TItem → List Nat → Option TItem
  | item, [] => item
  | item, num :: nums =>
    match items[num]? with
    | none => selectItem items item nums
    | some next =>
      selectItem items (if item.all fun i => i.priority < next.priority then some next else item)
        nums

/-- `Default()` -/
def default (m : TModule env) : Option Nat := m.dflt.map TItem.slave

def selectHandle (m : TModule env) (data : TChunkList) : Option Nat :=
  let matcher := (TMatcher.init m.fsm).matchList data
  if matcher.final then
    match selectItem m.items none matcher.matchedRegexps with
    | some item => some item.slave
    | none => m.default
  else m.default

/-- `THdrChooser`: the first header with a key that matches. -/
def chooseHeader (fsm : TFsm) (r : TRequest) : Option THeader :=
  r.headers.find? fun hdr => ((TMatcher.init fsm).matchList hdr.key).final

/-- `DoRun(descr)`: the module that is run. -/
def doRun (m : TModule env) (r : TRequest) : Except TException Nat :=
  let slave :=
    match m.fsmHeader with
    | none => m.selectHandle r.request
    | some fsm =>
      match chooseHeader fsm r with
      | some hdr => m.selectHandle hdr.value
      | none => m.selectHandle []
  match slave with
  | none => .error (.httpError 404 "no module for request handling")
  | some slave => .ok slave

end TModule

end Regexp

end Balancer
