import Balancer.Modules.Regexp.Module
import Balancer.Theory.FirstHighest

/-!
# Which module a request goes to

`SelectHandle` takes the first of the matching items with the highest priority
(`selectHandle_highest`). The default item is one of them, with the priority -1, so it comes before
another item that matches exactly if no such item is above -1, or at -1 and before it in the
configuration (`selectHandle_iff`).
-/

namespace Balancer.Regexp

open FirstHighest TItem TMatcher
open Http11 (ascii)

namespace TModule

variable {env : TModuleParams} (m : TModule env) (text : List UInt8)

/-- The regular expression of the item matches all of `text`. -/
def itemMatches (item : TItem) : Bool :=
  match env.pire.parse item.regexp (item.options m.caseInsensitive m.surround) with
  | .error _ => false
  | .ok a => a.accepts text

/-- The items that match, in the order of the configuration. -/
def matching : List TItem := m.items.filter (m.itemMatches text)

/-- Those of them that are not the default item. -/
def candidates : List TItem := (m.matching text).filter fun item => !item.isDefault

/-- The module that a request is for: that of the first of the candidates with the highest priority.
Only if there are none, it is that of the default item, if there is one. -/
structure Selects (handle : Option Nat) : Prop where
  candidate : m.candidates text ≠ [] → ∃ item, First priority (m.candidates text) item ∧
    handle = some item.slave
  dflt : m.candidates text = [] → ∀ item ∈ m.items, item.isDefault → handle = some item.slave
  null : m.candidates text = [] → (∀ item ∈ m.items, item.isDefault = false) → handle = none

theorem made_accepts : List.Forall₂ (fun item a => a.accepts text = m.itemMatches text item) m.items
    m.fsm.scanner := by
  refine m.made.imp fun item a h => ?_
  have hparse : env.pire.parse item.regexp (item.options m.caseInsensitive m.surround) = .ok a := h
  simp only [itemMatches, hparse]

theorem selectItem_highest (items : List TItem) {pre : List TItem} {o : Option TItem}
    (h : Highest priority pre o) (nums : List Nat) :
    Highest priority (pre ++ nums.filterMap fun num => items[num]?) (selectItem items o nums) := by
  induction nums generalizing pre o with
  | nil =>
    rw [List.filterMap_nil, List.append_nil]
    exact h
  | cons num nums ih =>
    rw [List.filterMap_cons, selectItem]
    cases items[num]? with
    | none => exact ih h
    | some next =>
      have hnext := ih (h.concat next)
      rwa [List.append_assoc, List.singleton_append] at hnext

/-- The first of the highest, whichever way the text is cut. -/
theorem selectHandle_highest (data : TChunkList) :
    ∃ o, Highest priority (m.matching data.flatten) o ∧
      m.selectHandle data = (o.map TItem.slave).or m.default := by
  have hmade := m.made_accepts data.flatten
  have hmatched : (matchedRegexps ((TMatcher.init m.fsm).matchData data.flatten)).filterMap
      (fun num => m.items[num]?) = m.matching data.flatten := filterMap_matchedFrom hmade []
  have hselected := selectItem_highest m.items (show Highest priority [] none from rfl)
    (matchedRegexps ((TMatcher.init m.fsm).matchData data.flatten))
  rw [List.nil_append, hmatched] at hselected
  refine ⟨_, hselected, ?_⟩
  simp only [selectHandle, matchList_eq]
  split
  · split
    · next item hitem => rw [hitem]; rfl
    · next hnone => rw [hnone]; rfl
  · next hfinal =>
    -- no item matches, so there was none to select
    have hempty : m.matching data.flatten = [] := by
      rw [final_eq_any hmade, List.any_eq_true] at hfinal
      exact List.filter_eq_nil_iff.2 fun item hitem hmatches => hfinal ⟨item, hitem, hmatches⟩
    rw [hempty] at hselected
    cases hsel : selectItem m.items none
      (matchedRegexps ((TMatcher.init m.fsm).matchData data.flatten)) with
    | none => rfl
    | some item =>
      rw [hsel] at hselected
      exact absurd (First.mem hselected) List.not_mem_nil

variable {m text}

theorem slave_inj {item item' : TItem} (h : item ∈ m.items) (h' : item' ∈ m.items)
    (heq : item.slave = item'.slave) : item = item' :=
  List.inj_on_of_nodup_map (m.slaves.imp Nat.ne_of_lt) h h' heq

theorem mem_items_of_matching {item : TItem} (h : item ∈ m.matching text) : item ∈ m.items :=
  List.mem_of_mem_filter h

section Default

variable (hone : (m.items.filter isDefault).length ≤ 1)
include hone

theorem default_eq_some {item : TItem} (h : item ∈ m.items) (hd : item.isDefault) :
    m.default = some item.slave := by
  have hmem : item ∈ m.items.filter isDefault := List.mem_filter.2 ⟨h, hd⟩
  obtain ⟨d, hd⟩ := List.length_eq_one_iff.1 (Nat.le_antisymm hone (List.length_pos_of_mem hmem))
  rw [hd, List.mem_singleton] at hmem
  rw [default, m.dflt_eq, hd, hmem]
  rfl

omit hone in
theorem default_eq_none (h : ∀ item ∈ m.items, item.isDefault = false) : m.default = none := by
  have hempty : m.items.filter isDefault = [] :=
    List.filter_eq_nil_iff.2 fun item hitem => Bool.eq_false_iff.1 (h item hitem)
  rw [default, m.dflt_eq, hempty]
  rfl

/-- Around the default item there are candidates only. -/
theorem candidates_eq {before after : List TItem} {d : TItem}
    (heq : m.matching text = before ++ d :: after) (hd : d.isDefault) :
    m.candidates text = before ++ after ∧ ∀ item ∈ before ++ after, item.isDefault = false := by
  have hle : ((m.matching text).filter isDefault).length ≤ 1 :=
    (List.Sublist.length_le (List.filter_sublist.filter _)).trans hone
  rw [heq, List.filter_append, List.filter_cons, if_pos hd, List.length_append, List.length_cons]
    at hle
  have hnone : (before ++ after).filter isDefault = [] := by
    rw [← List.length_eq_zero_iff, List.filter_append, List.length_append]
    omega
  have hothers : ∀ item ∈ before ++ after, item.isDefault = false := fun item hitem =>
    Bool.eq_false_iff.2 (List.filter_eq_nil_iff.1 hnone item hitem)
  refine ⟨?_, hothers⟩
  rw [candidates, heq, List.filter_append, List.filter_cons, if_neg (by simp [hd]),
    ← List.filter_append]
  exact List.filter_eq_self.2 fun item hitem => by rw [hothers item hitem]; rfl

end Default

/-- Another item comes before the default item, by its priority or by its place. -/
def Outranks (before after : List TItem) : Prop :=
  (∃ item ∈ before, defaultPriority ≤ item.priority) ∨ ∃ item ∈ after,
    defaultPriority < item.priority

theorem First.outranks {before after : List TItem} {d item : TItem} (hd : d.isDefault)
    (h : First priority (before ++ d :: after) item) :
    item = d ∧ ¬Outranks before after ∨ First priority (before ++ after) item ∧
      Outranks before after := by
  have hpriority : d.priority = defaultPriority := d.priority_default hd
  rcases h.erase with ⟨rfl, hbefore, hafter⟩ | ⟨hfirst, h⟩
  · refine .inl ⟨rfl, ?_⟩
    rintro (⟨other, hother, hle⟩ | ⟨other, hother, hlt⟩)
    · exact absurd (hpriority ▸ hbefore other hother) (not_lt.2 hle)
    · exact absurd (hpriority ▸ hafter other hother) (not_le.2 hlt)
  · rw [hpriority] at h
    exact .inr ⟨hfirst, h⟩

section Select

variable {handle : Option Nat} {o : Option TItem}
  (hone : (m.items.filter isDefault).length ≤ 1) (hhighest : Highest priority (m.matching text) o)
  (hhandle : handle = (o.map TItem.slave).or m.default)
include hone hhighest hhandle

/-- Without the default item in it the election is the right one. -/
theorem selects_of_not_default (h : ∀ item ∈ m.matching text, item.isDefault = false) :
    m.Selects text handle := by
  have hcand : m.candidates text = m.matching text :=
    List.filter_eq_self.2 fun item hitem => by rw [h item hitem]; rfl
  cases o with
  | none =>
    have hempty : m.matching text = [] := hhighest
    exact ⟨fun hne => absurd (hcand.trans hempty) hne,
      fun _ item hitem hd => hhandle.trans (default_eq_some hone hitem hd),
      fun _ hnone => hhandle.trans (default_eq_none hnone)⟩
  | some item =>
    have hfirst : First priority (m.matching text) item := hhighest
    have hne : m.candidates text ≠ [] := hcand ▸ List.ne_nil_of_mem hfirst.mem
    exact ⟨fun _ => ⟨item, hcand ▸ hfirst, hhandle⟩, fun hempty => absurd hempty hne,
      fun hempty => absurd hempty hne⟩

/-- With the default item in it, another one has to come before it, if there is another one. -/
theorem selects_iff_outranks {before after : List TItem} {d : TItem}
    (heq : m.matching text = before ++ d :: after) (hd : d.isDefault) :
    m.Selects text handle ↔ before ++ after = [] ∨ Outranks before after := by
  obtain ⟨hcand, hothers⟩ := candidates_eq hone heq hd
  have hmem : d ∈ m.items :=
    mem_items_of_matching (heq ▸ List.mem_append_right _ List.mem_cons_self)
  cases o with
  | none => exact absurd (heq.symm.trans hhighest) (by simp)
  | some item =>
    have hfirst : First priority (before ++ d :: after) item := heq ▸ hhighest
    rcases First.outranks hd hfirst with ⟨rfl, hnot⟩ | ⟨hfirst', houtranks⟩
    · rw [or_iff_left hnot]
      constructor
      · intro h
        by_contra hne
        obtain ⟨other, hother, hslave⟩ := h.candidate (hcand ▸ hne)
        -- the modules are different, and the default item is no candidate
        rw [hcand] at hother
        have hitems : other ∈ m.items :=
          mem_items_of_matching (List.mem_of_mem_filter (hcand ▸ hother.mem))
        have hsame : item = other :=
          slave_inj hmem hitems (Option.some.inj (hhandle.symm.trans hslave))
        exact Bool.eq_false_iff.1 (hothers other hother.mem) (hsame ▸ hd)
      · intro hempty
        refine ⟨fun hne => absurd (hcand.trans hempty) hne, fun _ other hother hd' => ?_,
          fun _ hnone => ?_⟩
        · exact hhandle.trans ((default_eq_some hone hmem hd).symm.trans
            (default_eq_some hone hother hd'))
        · exact absurd hd (Bool.eq_false_iff.1 (hnone item hmem))
    · have hne : m.candidates text ≠ [] := hcand ▸ List.ne_nil_of_mem hfirst'.mem
      exact iff_of_true ⟨fun _ => ⟨item, hcand ▸ hfirst', hhandle⟩, fun hempty => absurd hempty hne,
        fun hempty => absurd hempty hne⟩ (.inr houtranks)

end Select

/-- With at most one default item, `SelectHandle` gives the module that a request is for exactly if
the default item does not match, or no other item does, or another one that matches is above -1, or
at -1 and before the default item. -/
theorem selectHandle_iff {env : TModuleParams} (m : TModule env)
    (hone : (m.items.filter isDefault).length ≤ 1) (data : TChunkList) :
    m.Selects data.flatten (m.selectHandle data) ↔
      ∀ before d after, m.matching data.flatten = before ++ d :: after → d.isDefault →
        before ++ after = [] ∨ Outranks before after := by
  obtain ⟨o, hhighest, hhandle⟩ := m.selectHandle_highest data
  constructor
  · intro h before d after heq hd
    exact (selects_iff_outranks hone hhighest hhandle heq hd).1 h
  · intro h
    by_cases hdflt : ∃ d ∈ m.matching data.flatten, d.isDefault
    · obtain ⟨d, hmem, hd⟩ := hdflt
      obtain ⟨before, after, heq⟩ := List.append_of_mem hmem
      exact (selects_iff_outranks hone hhighest hhandle heq hd).2 (h before d after heq hd)
    · refine selects_of_not_default hone hhighest hhandle fun item hitem => ?_
      exact Bool.eq_false_iff.2 fun hd => hdflt ⟨item, hitem, hd⟩

end TModule

/-! ### An item below the default item -/

/-- A pire that knows `.*` only. -/
def anyText : TPire where
  parse := fun regexp _ =>
    if regexp = ascii ".*" then .ok ⟨0, fun _ _ => 0, fun _ => true⟩
    else .error (.yexception "syntax error")
  fits := fun _ _ => true

def params : TModuleParams where
  mustLoad := fun _ _ => .ok ()
  fromString := fun s =>
    if s = ascii "-2" then .ok (((-2 : ℚ) : WithTop ℚ) : TFloat)
    else .error (.yexception "cannot parse float")
  pire := anyText

/-- An item `.*`. -/
def anyItem (name : List UInt8) (slave : Nat) (priority : TFloat)
    (h : isDefaultName name → priority = defaultPriority) : TItem where
  name := name
  regexp := ascii ".*"
  caseInsensitive := .default
  surround := .default
  slave := slave
  priority := priority
  priority_default := h

/-- The item `a` and the default item behind it. Both match every request. -/
def twoItems (priority : TFloat) : TModule params where
  items := [anyItem (ascii "a") 0 priority (fun h => absurd h (by decide)),
    anyItem (ascii "default") 1 defaultPriority (fun _ => rfl)]
  fsm := ⟨[⟨0, fun _ _ => 0, fun _ => true⟩, ⟨0, fun _ _ => 0, fun _ => true⟩]⟩
  fsmHeader := none
  caseInsensitive := false
  surround := false
  dflt := some (anyItem (ascii "default") 1 defaultPriority (fun _ => rfl))
  made := .cons rfl (.cons rfl .nil)
  dflt_eq := rfl
  slaves := (by decide : [0, 1].Pairwise (· < ·))

def stringValue (s : String) : IValue :=
  .mk (.ok (ascii s)) (.error (.yexception "boolean expected")) (.error (.yexception "parse error"))

def tableValue (l : IConfig) : IValue :=
  .mk (.error (.yexception "string expected")) (.error (.yexception "boolean expected")) (.ok l)

def itemValue (l : IConfig) : IValue := tableValue (l ++ [(ascii "proxy", tableValue [])])

/-- With the priority 1, `a` comes before the default item. -/
theorem selects_above_default :
    (twoItems ((1 : ℚ) : WithTop ℚ)).Selects (ascii "GET / HTTP/1.1")
      ((twoItems ((1 : ℚ) : WithTop ℚ)).selectHandle [ascii "GET / HTTP/1.1"]) := by
  refine (TModule.selectHandle_iff (twoItems ((1 : ℚ) : WithTop ℚ)) (by decide)
    [ascii "GET / HTTP/1.1"]).2 ?_
  intro before d after heq hd
  cases before with
  | nil =>
    obtain ⟨rfl, -⟩ := List.cons.inj heq
    exact absurd hd (by decide)
  | cons first before =>
    obtain ⟨rfl, -⟩ := List.cons.inj heq
    exact .inr (.inl ⟨_, List.mem_cons_self, by decide⟩)

/-- With the priority -2, `a` never gets a request. -/
theorem selects_below_default :
    TModule.make params
        [(ascii "a", itemValue [(ascii "match", stringValue ".*"),
          (ascii "priority", stringValue "-2")]),
          (ascii "default", itemValue [])] = .ok (twoItems ((-2 : ℚ) : WithTop ℚ)) ∧
      (twoItems ((-2 : ℚ) : WithTop ℚ)).selectHandle [ascii "GET / HTTP/1.1"] = some 1 ∧
      ¬(twoItems ((-2 : ℚ) : WithTop ℚ)).Selects (ascii "GET / HTTP/1.1") (some 1) := by
  refine ⟨rfl, rfl, fun h => ?_⟩
  obtain ⟨item, hfirst, hslave⟩ := h.candidate (List.cons_ne_nil _ _)
  obtain rfl := List.mem_singleton.1 hfirst.mem
  exact absurd hslave (by decide)

end Balancer.Regexp
