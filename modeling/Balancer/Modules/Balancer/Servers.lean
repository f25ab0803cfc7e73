import Balancer.Util.AvlTree

/-!
# Backends in the order of their weights

What `rrobin.cpp` and `smartrr.cpp` share: the tree `Servers_`, in which the backends are ordered by
`Weight_`, and the body of `DoNext`. A backend is named by its number in the configuration;
`Weight_` is a function of that number, over any type of weights.
-/

namespace Balancer

open Function (update)

variable {K : Type} [LinearOrder K]

/-- `TBackEnd::Compare`: by the weight, and among equal weights by the address. -/
def weightLt (address : Nat → Nat) (weight : Nat → K) (l r : Nat) : Prop :=
  weight l < weight r ∨ (weight l = weight r ∧ address l < address r)

instance (address : Nat → Nat) (weight : Nat → K) : DecidableRel (weightLt address weight) :=
  fun l r => inferInstanceAs
    (Decidable (weight l < weight r ∨ (weight l = weight r ∧ address l < address r)))

/-- `Servers_` with the fields of the backends that its order depends on. -/
structure TServers (K : Type) where
  address : Nat ↪ Nat
  weight : Nat → K
  tree : TTree Nat := {}

namespace TServers

/-- `Servers_.Insert(b)` for a new backend of the weight `w`. -/
def add (s : TServers K) (b : Nat) (w : K) : TServers K :=
  let weight := update s.weight b w
  { s with weight, tree := s.tree.insert (weightLt s.address weight) b }

/-- `DoNext`, where `inc` is what `IncUsageCount` does to the weight; `none` when the tree is
empty. -/
def next (inc : Nat → K → K) (s : TServers K) : Option (Nat × TServers K) :=
  s.tree.head.map fun next =>
    let tree := s.tree.erase next
    let weight := update s.weight next (inc next (s.weight next))
    (next, { s with weight, tree := tree.insert (weightLt s.address weight) next })

end TServers

/-! ### The order -/

section
variable {address : Nat → Nat} {weight weight' : Nat → K} {a b c : Nat}

instance : IsStrictOrder Nat (weightLt address weight) where
  irrefl a h := h.elim (lt_irrefl _) fun h => lt_irrefl _ h.2
  trans a b c hab hbc := by
    rcases hab with hab | ⟨hab, hab'⟩ <;> rcases hbc with hbc | ⟨hbc, hbc'⟩
    · exact .inl (hab.trans hbc)
    · exact .inl (hbc ▸ hab)
    · exact .inl (hab ▸ hbc)
    · exact .inr ⟨hab.trans hbc, hab'.trans hbc'⟩

theorem weightLt_total (haddr : Function.Injective address) (hne : a ≠ b) :
    weightLt address weight a b ∨ weightLt address weight b a := by
  rcases lt_trichotomy (weight a) (weight b) with h | h | h
  · exact .inl (.inl h)
  · rcases Nat.lt_or_gt_of_ne (haddr.ne hne) with h' | h'
    · exact .inl (.inr ⟨h, h'⟩)
    · exact .inr (.inr ⟨h.symm, h'⟩)
  · exact .inr (.inl h)

theorem weightLt.weight_le (h : weightLt address weight a b) : weight a ≤ weight b :=
  h.elim le_of_lt fun h => h.1.le

theorem weightLt_congr (ha : weight' a = weight a) (hb : weight' b = weight b) :
    weightLt address weight' a b ↔ weightLt address weight a b := by
  rw [weightLt, weightLt, ha, hb]

/-- A list that does not hold `el` stays in order when the weight of `el` changes. -/
theorem pairwise_update {l : List Nat} {el : Nat} (w : K) (hel : el ∉ l)
    (hl : l.Pairwise (weightLt address weight)) :
    l.Pairwise (weightLt address (update weight el w)) := by
  refine hl.imp_of_mem fun {a b} ha hb h => ?_
  have hne : ∀ {c}, c ∈ l → update weight el w c = weight c := by
    intro c hc
    exact Function.update_of_ne (fun h : c = el => hel (h ▸ hc)) _ _
  exact (weightLt_congr (hne ha) (hne hb)).2 h

end

/-! ### The tree -/

namespace TServers

variable {s : TServers K} {n b : Nat}

/-- The tree is in order and holds every one of `n` backends once. -/
structure Holds (s : TServers K) (n : Nat) : Prop where
  valid : s.tree.Valid (weightLt s.address s.weight)
  perm : s.tree.toList.Perm (List.range n)

theorem holds_empty (address : Nat ↪ Nat) (weight : Nat → K) : Holds { address, weight } 0 :=
  ⟨TTree.valid_empty, .refl _⟩

theorem Holds.nodup (h : s.Holds n) : s.tree.toList.Nodup := h.perm.nodup_iff.2 List.nodup_range

/-- A backend with a new weight is put among the others. -/
theorem insert_update {t : TTree Nat} (ht : t.Valid (weightLt s.address s.weight))
    (hb : b ∉ t.toList) (w : K) : (t.insert (weightLt s.address (update s.weight b w)) b).Valid
        (weightLt s.address (update s.weight b w)) ∧
      (t.insert (weightLt s.address (update s.weight b w)) b).toList =
        TAvlTree.insert (weightLt s.address (update s.weight b w)) b t.toList ∧
      (t.insert (weightLt s.address (update s.weight b w)) b).toList.Perm (b :: t.toList) := by
  have htotal : ∀ c ∈ t.toList, weightLt s.address (update s.weight b w) b c ∨
      weightLt s.address (update s.weight b w) c b := by
    intro c hc
    exact weightLt_total s.address.injective fun h : b = c => hb (h ▸ hc)
  have ht' := ht.of_pairwise (pairwise_update w hb ht.sorted)
  have hlist := TTree.insert_toList ht' hb htotal
  refine ⟨ht'.insert hb htotal, hlist, ?_⟩
  rw [hlist]
  exact TAvlTree.insert_perm htotal

theorem Holds.add (h : s.Holds n) (w : K) : (s.add n w).Holds (n + 1) := by
  have hn : n ∉ s.tree.toList := by
    intro hm
    exact Nat.lt_irrefl n (List.mem_range.1 (h.perm.mem_iff.1 hm))
  obtain ⟨hvalid, -, hperm⟩ := insert_update h.valid hn w
  refine ⟨hvalid, hperm.trans ?_⟩
  rw [List.range_succ]
  exact (h.perm.cons n).trans (List.perm_append_singleton _ _).symm

/-- `DoNext` takes the first backend, which is the lightest, and puts it back with its new
weight. -/
theorem Holds.next (h : s.Holds n) (hn : 0 < n) (inc : Nat → K → K) :
    ∃ b rest s', s.next inc = some (b, s') ∧ s'.Holds n ∧ b < n ∧
      (∀ c < n, s.weight b ≤ s.weight c) ∧
      s'.address = s.address ∧ s'.weight = update s.weight b (inc b (s.weight b)) ∧
      s.tree.toList = b :: rest ∧
      s'.tree.toList = TAvlTree.insert (weightLt s.address s'.weight) b rest := by
  have hne : s.tree.toList ≠ [] := by
    intro hnil
    have hlen := h.perm.length_eq
    rw [hnil, List.length_range] at hlen
    exact Nat.ne_of_lt hn hlen
  obtain ⟨b, rest, hb⟩ := List.exists_cons_of_ne_nil hne
  have hhead : s.tree.head = some b := by rw [h.valid.head, hb, List.head?_cons]
  have herase : (s.tree.erase b).toList = rest := by
    rw [TTree.erase_toList h.nodup, hb, List.erase_cons_head]
  have hrest : b ∉ (s.tree.erase b).toList := by
    rw [herase]
    exact (List.nodup_cons.1 (hb ▸ h.nodup)).1
  obtain ⟨hvalid, hlist, hperm⟩ := insert_update (h.valid.erase b) hrest (inc b (s.weight b))
  have hmem : ∀ {c}, c ∈ b :: rest ↔ c < n := by
    intro c
    rw [← hb, h.perm.mem_iff, List.mem_range]
  refine ⟨b, rest, _, (congrArg (Option.map _) hhead).trans (Option.map_some ..), ⟨hvalid, ?_⟩,
    hmem.1 List.mem_cons_self, ?_, rfl, rfl, hb, ?_⟩
  · rw [herase, ← hb] at hperm
    exact hperm.trans h.perm
  · intro c hc
    rcases List.mem_cons.1 (hmem.2 hc) with rfl | hc
    · exact le_refl _
    · have hsorted := h.valid.sorted
      rw [hb] at hsorted
      exact ((List.pairwise_cons.1 hsorted).1 c hc).weight_le
  · rw [herase] at hlist
    exact hlist

end TServers

end Balancer
