import Balancer.Modules.Balancer.Iterator
import Balancer.Modules.Balancer.Servers

/-!
# The round-robin policy

`modules/balancer/rrobin.cpp`. A backend is named by its number in the configuration, and the fields
of its object are functions of that number. `double` is taken as exact.
-/

namespace Balancer

open Function (update)

namespace RRobin

/-- `TBackEnd::Compare`: by the weight, and among equal weights by the address. -/
def TBackEnd.compare (address : Nat → Nat) (weight : Nat → ℚ) (l r : Nat) : Prop :=
  weight l < weight r ∨ (weight l = weight r ∧ address l < address r)

instance (address : Nat → Nat) (weight : Nat → ℚ) :
    DecidableRel (TBackEnd.compare address weight) :=
  fun l r => inferInstanceAs
    (Decidable (weight l < weight r ∨ (weight l = weight r ∧ address l < address r)))

namespace TBackEnd

variable {address : Nat → Nat} {weight weight' : Nat → ℚ} {a b c : Nat}

theorem compare_trans (hab : compare address weight a b) (hbc : compare address weight b c) :
    compare address weight a c :=
  IsTrans.trans (r := weightLt address weight) a b c hab hbc

theorem compare_total (haddr : Function.Injective address) (hne : a ≠ b) :
    compare address weight a b ∨ compare address weight b a :=
  weightLt_total haddr hne

theorem compare.weight_le (h : compare address weight a b) : weight a ≤ weight b :=
  weightLt.weight_le h

/-- The order of two elements is kept when the first one gets no heavier and the other one keeps its
weight. -/
theorem compare.of_le (h : compare address weight a b) (ha : weight' a ≤ weight a)
    (hb : weight' b = weight b) : compare address weight' a b := by
  rcases h with h | ⟨h, h'⟩
  · exact .inl (hb ▸ ha.trans_lt h)
  · rcases ha.lt_or_eq with ha | ha
    · exact .inl (hb ▸ h ▸ ha)
    · exact .inr ⟨by rw [ha, hb, h], h'⟩

end TBackEnd

/-- `TBackEnds`: the objects' addresses and fields, the number of them in `List_`, and the order of
`Servers_`. -/
structure TBackEnds where
  address : Nat ↪ Nat
  weightStep : Nat → ℚ
  weight : Nat → ℚ
  size : Nat
  servers : List Nat
  perm : servers.Perm (List.range size)
  sorted : servers.Pairwise (TBackEnd.compare address weight)

namespace TBackEnds

theorem mem_servers {p : TBackEnds} {b : Nat} : b ∈ p.servers ↔ b < p.size := by
  rw [p.perm.mem_iff, List.mem_range]

theorem nodup_servers (p : TBackEnds) : p.servers.Nodup := p.perm.nodup_iff.mpr List.nodup_range

theorem servers_ne_nil {p : TBackEnds} (h : p.size ≠ 0) : p.servers ≠ [] := by
  intro hs
  have hlen := p.perm.length_eq
  rw [hs, List.length_range] at hlen
  exact h hlen.symm

/-- Putting an object `el` with a new weight among others that are in order. -/
theorem insert_update (address : Nat ↪ Nat) (weight : Nat → ℚ) {l : List Nat} {el : Nat} (w : ℚ)
    (hel : el ∉ l) (hl : l.Pairwise (TBackEnd.compare address weight)) :
    (TAvlTree.insert (TBackEnd.compare address (update weight el w)) el l).Perm (el :: l) ∧
    (TAvlTree.insert (TBackEnd.compare address (update weight el w)) el l).Pairwise
      (TBackEnd.compare address (update weight el w)) := by
  have htotal : ∀ c ∈ l, TBackEnd.compare address (update weight el w) el c ∨
      TBackEnd.compare address (update weight el w) c el := fun c hc =>
    TBackEnd.compare_total address.injective fun h : el = c => hel (h ▸ hc)
  have hl' : l.Pairwise (TBackEnd.compare address (update weight el w)) := pairwise_update w hel hl
  exact ⟨TAvlTree.insert_perm htotal, TAvlTree.insert_pairwise TBackEnd.compare_trans htotal hl'⟩

/-- No backends yet; `address` is where the pool will put them. -/
def empty (address : Nat ↪ Nat) : TBackEnds where
  address := address
  weightStep _ := 0
  weight _ := 0
  size := 0
  servers := []
  perm := .refl _
  sorted := List.Pairwise.nil

theorem size_notMem_servers (p : TBackEnds) : p.size ∉ p.servers := fun h =>
  Nat.lt_irrefl _ (mem_servers.mp h)

/-- `Add(descr)`. -/
def add (p : TBackEnds) (descr : TBackEndDescriptor) : TBackEnds where
  address := p.address
  weightStep := update p.weightStep p.size descr.weight
  weight := update p.weight p.size descr.weight
  size := p.size + 1
  servers :=
    TAvlTree.insert (TBackEnd.compare p.address (update p.weight p.size descr.weight)) p.size
      p.servers
  perm := by
    refine (insert_update p.address p.weight _ p.size_notMem_servers p.sorted).1.trans ?_
    rw [List.range_succ]
    exact (p.perm.cons _).trans (List.perm_append_singleton _ _).symm
  sorted := (insert_update p.address p.weight _ p.size_notMem_servers p.sorted).2

@[simp] theorem add_size (p : TBackEnds) (descr : TBackEndDescriptor) :
    (p.add descr).size = p.size + 1 := rfl

@[simp] theorem add_weightStep (p : TBackEnds) (descr : TBackEndDescriptor) :
    (p.add descr).weightStep = update p.weightStep p.size descr.weight := rfl

@[simp] theorem add_weight (p : TBackEnds) (descr : TBackEndDescriptor) :
    (p.add descr).weight = update p.weight p.size descr.weight := rfl

/-- The constructor, on the descriptors of the configuration. -/
def ofConfig (address : Nat ↪ Nat) (descrs : List TBackEndDescriptor) : TBackEnds :=
  descrs.foldl add (empty address)

theorem ofConfig_concat (address : Nat ↪ Nat) (descrs : List TBackEndDescriptor)
    (d : TBackEndDescriptor) :
    ofConfig address (descrs ++ [d]) = (ofConfig address descrs).add d := by
  rw [ofConfig, List.foldl_append]
  rfl

@[simp] theorem size_ofConfig (address : Nat ↪ Nat) (descrs : List TBackEndDescriptor) :
    (ofConfig address descrs).size = descrs.length := by
  induction descrs using List.reverseRecOn with
  | nil => rfl
  | append_singleton descrs d ih =>
    rw [ofConfig_concat, add_size, ih, List.length_append, List.length_singleton]

theorem head_notMem_tail {l : List Nat} (h : l ≠ []) (hl : l.Nodup) : l.head h ∉ l.tail := by
  rw [← List.cons_head_tail h] at hl
  exact (List.nodup_cons.mp hl).1

/-- `DoNext`, for backends that are not empty. -/
def doNext (p : TBackEnds) (h : p.size ≠ 0) : Nat × TBackEnds :=
  let next := p.servers.head (servers_ne_nil h)
  let weight := update p.weight next (p.weight next + p.weightStep next)
  have hnext := head_notMem_tail (servers_ne_nil h) p.nodup_servers
  have hsorted :=
    insert_update p.address p.weight (p.weight next + p.weightStep next) hnext p.sorted.tail
  (next, {
    p with
    weight := weight
    servers := TAvlTree.insert (TBackEnd.compare p.address weight) next p.servers.tail
    perm := hsorted.1.trans (by rw [List.cons_head_tail]; exact p.perm)
    sorted := hsorted.2 })

theorem doNext_cons {p : TBackEnds} (h : p.size ≠ 0) {b : Nat} {rest : List Nat}
    (hs : p.servers = b :: rest) : (p.doNext h).1 = b ∧ (p.doNext h).2.servers =
      TAvlTree.insert (TBackEnd.compare p.address
        (update p.weight b (p.weight b + p.weightStep b))) b rest := by
  have hhead : p.servers.head (servers_ne_nil h) = b := by simp only [hs, List.head_cons]
  have htail : p.servers.tail = rest := by rw [hs, List.tail_cons]
  simp only [doNext, hhead, htail, and_self]

end TBackEnds

/-- The backends of a module: `TModule` refuses empty ones. -/
def TPool : Type := { p : TBackEnds // p.size ≠ 0 }

/-- The backends of a configuration. -/
def TPool.configured (address : Nat ↪ Nat) (descrs : List TBackEndDescriptor) (h : descrs ≠ []) :
    TPool :=
  ⟨.ofConfig address descrs, by rwa [TBackEnds.size_ofConfig, ne_eq, List.length_eq_zero_iff]⟩

instance : IBackEnds TPool Nat where
  next p _ := let r := p.1.doNext p.2; (r.1, ⟨r.2, p.2⟩)
  size p := p.1.size

/-- `m` picks of other requests. -/
def TPool.picks (m : Nat) : TPool → TPool := (fun p => (IBackEnds.next p 0).2)^[m]

/-! ### `Servers_` as a tree -/

/-- `TBackEnds` with the tree itself instead of the order of its elements. -/
structure TTreeBackEnds where
  servers : TServers ℚ
  weightStep : Nat → ℚ
  size : Nat

namespace TTreeBackEnds

def empty (address : Nat ↪ Nat) : TTreeBackEnds where
  servers := { address, weight := fun _ => 0 }
  weightStep _ := 0
  size := 0

/-- `Add(descr)`. -/
def add (p : TTreeBackEnds) (descr : TBackEndDescriptor) : TTreeBackEnds where
  servers := p.servers.add p.size descr.weight
  weightStep := update p.weightStep p.size descr.weight
  size := p.size + 1

/-- The constructor, on the descriptors of the configuration. -/
def ofConfig (address : Nat ↪ Nat) (descrs : List TBackEndDescriptor) : TTreeBackEnds :=
  descrs.foldl add (empty address)

/-- `DoNext`; without backends `Begin()` has no element. -/
def doNext (p : TTreeBackEnds) : Option (Nat × TTreeBackEnds) :=
  (p.servers.next fun b w => w + p.weightStep b).map fun r => (r.1, { p with servers := r.2 })

/-- `k` calls of `DoNext`, with what they return. -/
def run : Nat → TTreeBackEnds → Option (List Nat × TTreeBackEnds)
  | 0, p => some ([], p)
  | k + 1, p =>
    p.doNext.bind fun r => (run k r.2).map fun rs => (r.1 :: rs.1, rs.2)

/-- The tree of `p` holds the backends of `q`, in their order. -/
structure Refines (p : TTreeBackEnds) (q : TBackEnds) : Prop where
  holds : p.servers.Holds q.size
  servers : p.servers.tree.toList = q.servers
  address : p.servers.address = q.address
  weight : p.servers.weight = q.weight
  weightStep : p.weightStep = q.weightStep
  size : p.size = q.size

variable {p : TTreeBackEnds} {q : TBackEnds}

theorem refines_empty (address : Nat ↪ Nat) : Refines (empty address) (.empty address) :=
  ⟨TServers.holds_empty _ _, rfl, rfl, rfl, rfl, rfl⟩

theorem Refines.add (h : Refines p q) (descr : TBackEndDescriptor) :
    Refines (p.add descr) (q.add descr) where
  holds := by
    have hadd := h.holds.add descr.weight
    rw [← h.size] at hadd
    rwa [TBackEnds.add_size, ← h.size]
  servers := by
    have hsize : p.size ∉ p.servers.tree.toList := by
      rw [h.servers, h.size]
      exact q.size_notMem_servers
    have hlist := (TServers.insert_update h.holds.valid hsize descr.weight).2.1
    rw [h.servers, h.address, h.weight, h.size] at hlist
    rw [TTreeBackEnds.add, TServers.add, h.address, h.weight, h.size]
    exact hlist
  address := h.address
  weight := by
    show update p.servers.weight p.size descr.weight = _
    rw [h.weight, h.size, TBackEnds.add_weight]
  weightStep := by
    show update p.weightStep p.size descr.weight = _
    rw [h.weightStep, h.size, TBackEnds.add_weightStep]
  size := congrArg (· + 1) h.size

theorem refines_ofConfig (address : Nat ↪ Nat) (descrs : List TBackEndDescriptor) :
    Refines (ofConfig address descrs) (.ofConfig address descrs) := by
  induction descrs using List.reverseRecOn with
  | nil => exact refines_empty address
  | append_singleton descrs d ih =>
    rw [TBackEnds.ofConfig_concat, ofConfig, List.foldl_append]
    exact ih.add d

/-- The tree gives the backend that is first in the order, and stays in step with it. -/
theorem Refines.doNext (h : Refines p q) (hq : q.size ≠ 0) :
    ∃ p', p.doNext = some ((q.doNext hq).1, p') ∧ Refines p' (q.doNext hq).2 := by
  obtain ⟨b, rest, s', hnext, hholds, -, -, haddress, hweight, hs, hs'⟩ :=
    h.holds.next (Nat.pos_of_ne_zero hq) fun b w => w + p.weightStep b
  obtain ⟨hb, hservers⟩ := TBackEnds.doNext_cons hq (h.servers.symm.trans hs)
  have hw : (q.doNext hq).2.weight = update q.weight b (q.weight b + q.weightStep b) := by
    rw [← hb]
    rfl
  rw [h.weight, h.weightStep] at hweight
  refine ⟨{ p with servers := s' }, ?_, hholds, ?_, haddress.trans h.address, hweight.trans hw.symm,
    h.weightStep, h.size⟩
  · rw [TTreeBackEnds.doNext, hnext, hb, Option.map_some]
  · rw [hservers, hs', hweight, h.address]
    rfl

end TTreeBackEnds

end RRobin

end Balancer
