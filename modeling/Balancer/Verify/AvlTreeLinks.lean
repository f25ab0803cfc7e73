import Balancer.Util.AvlTreeLinks

/-!
# The nodes of an AVL tree

What the nodes of a tree look like is described by a value of `TTreeItem` (`Lies`), at a place that
is given by its ancestors. Along them `RecalcHeights` computes the heights anew
(`recalcHeights_lies`), and the loop of `EraseImpl` comes to the tree that `TTreeItem.rebalance`
makes at every ancestor (`fixLoop_lies`).
-/

namespace Balancer

open LinkedTree TAvlMemory LinkedTree.Memory LinkedTree.Cell LinkedTree.Tree
open TTreeItem (height)

variable {T : Type}

/-! ### Values and places -/

namespace TTreeItem

variable {d : Side} {a b t : TTreeItem T} {x v : T} {h : Nat}

@[simp] theorem height_sided : height (sided d h a x b) = h := by
  cases d <;> rfl

/-- Every node has the height of its tree. -/
def Heighted : TTreeItem T → Prop
  | nil => True
  | node h l _ r => Heighted l ∧ Heighted r ∧ h = max (height l) (height r) + 1

theorem Balanced.heighted (ht : t.Balanced) : t.Heighted := by
  induction t with
  | nil => trivial
  | node h l x r ihl ihr => exact ⟨ihl ht.1, ihr ht.2.1, ht.2.2.1⟩

theorem heighted_rebalance {l r : TTreeItem T} (x : T) (hl : l.Heighted) (hr : r.Heighted) :
    (rebalance l x r).Heighted := by
  fun_cases rebalance l x r <;> simp_all only [Heighted, rebuild, recalc, and_self]

end TTreeItem

open TTreeItem (Heighted)

abbrev TAvlFrame (T : Type) := Frame T Nat

abbrev TAvlPath (T : Type) := Path T Nat

theorem val_mem {f : TAvlFrame T} {k : TAvlPath T} (hf : f ∈ k) : f.val ∈ k.elems := by
  induction k with
  | nil => cases hf
  | cons g k ih =>
    rw [Path.mem_elems_cons]
    rcases List.mem_cons.1 hf with rfl | hf
    · exact .inl rfl
    · exact .inr (.inr (ih hf))

/-! ### Layouts -/

/-- The nodes around a place and in it are those of `k` and `t`. -/
abbrev Lies (m : TAvlMemory T) (root : Option T) (k : TAvlPath T) (t : TTreeItem T) : Prop :=
  At id m none root k t

section Lies

variable {m : TAvlMemory T} {root : Option T} {k : TAvlPath T} {f : TAvlFrame T}
  {t a b : TTreeItem T} {d : Side}
  {x v : T} {h : Nat}

theorem lies_cons : Lies m root (f :: k) t ↔ Lies m root k (f.plug t) := at_cons

theorem lies_plug : Lies m root k t ↔ Lies m root [] (k.plug t) := at_plug

theorem lies_append {k' : TAvlPath T} : Lies m root (k ++ k') t ↔ Lies m root k' (k.plug t) :=
  at_append

namespace Lies

/-- The fields of the node at the root of a subtree. -/
theorem links (hlies : Lies m root k (sided d h a x b)) :
    (m x).info = h ∧ (m x).parent = k.ptr none ∧ (m x).child d = a.ptr ∧
      (m x).child d.other = b.ptr := by
  have hfits := hlies.fits
  rw [fits_sided] at hfits
  exact ⟨hfits.1, hfits.2.1, hfits.2.2.1, hfits.2.2.2.1⟩

theorem root_eq (hlies : Lies m root [] t) : root = t.ptr := by
  exact hlies.hangs

theorem heightOf_ptr (hlies : Lies m root k t) : heightOf m t.ptr = t.height := by
  cases t with
  | nil => rfl
  | node h l x r => exact (links (d := .left) hlies).1

/-- The fields of the nearest ancestor. -/
theorem frame (hlies : Lies m root (f :: k) t) :
    (m f.val).info = f.info ∧ (m f.val).parent = k.ptr none ∧ (m f.val).child f.side = t.ptr ∧
      (m f.val).child f.side.other = f.sibling.ptr :=
  links (lies_cons.1 hlies)

theorem heightOf_sibling (hlies : Lies m root (f :: k) t) :
    heightOf m f.sibling.ptr = height f.sibling := by
  have hother : Lies m root (⟨f.side.other, f.info, f.val, t⟩ :: k) f.sibling := by
    rw [lies_cons, Frame.plug, sided_other]
    exact lies_cons.1 hlies
  exact hother.heightOf_ptr

/-- Both children of the nearest ancestor, by their heights. -/
theorem heights (hlies : Lies m root (f :: k) t) :
    (heightOf m (m f.val).left = t.height ∧ heightOf m (m f.val).right = height f.sibling) ∨
      (heightOf m (m f.val).left = height f.sibling ∧ heightOf m (m f.val).right = t.height) := by
  obtain ⟨-, -, hnear, hfar⟩ := hlies.frame
  rw [← hlies.heightOf_ptr, ← hlies.heightOf_sibling, ← hnear, ← hfar]
  cases f.side with
  | left => exact .inl ⟨rfl, rfl⟩
  | right => exact .inr ⟨rfl, rfl⟩

theorem newHeight_eq (hlies : Lies m root (f :: k) t) :
    newHeight m f.val = max t.height (height f.sibling) + 1 := by
  rcases hlies.heights with ⟨hleft, hright⟩ | ⟨hleft, hright⟩
  · rw [newHeight, hleft, hright]
  · rw [newHeight, hleft, hright, max_comm]

theorem isUnbal_iff (hlies : Lies m root (f :: k) t) :
    isUnbal m f.val = true ↔ t.height + 1 < height f.sibling ∨ height f.sibling + 1 < t.height := by
  simp only [isUnbal, Bool.or_eq_true, decide_eq_true_eq]
  rcases hlies.heights with ⟨hleft, hright⟩ | ⟨hleft, hright⟩
  · rw [hleft, hright]
    omega
  · rw [hleft, hright]
    omega

theorem notMem_path (hlies : Lies m root k t) (hv : v ∈ t.toList) : v ∉ k.elems :=
  fun hmem => hlies.disjoint.2.2 hmem hv

end Lies

end Lies

/-! ### Heights -/

section Heights

variable {m : TAvlMemory T} {root : Option T} {k : TAvlPath T} {f : TAvlFrame T} {t : TTreeItem T}

/-- The ancestors with the heights that they have above a subtree of the height `h`. -/
def TAvlPath.reheight : TAvlPath T → Nat → TAvlPath T
  | [], _ => []
  | f :: k, h =>
    { f with info := max h (height f.sibling) + 1 } :: reheight k (max h (height f.sibling) + 1)

/-- The ancestors have the heights of their children. -/
def TAvlPath.Measured : TAvlPath T → Nat → Prop
  | [], _ => True
  | f :: k, h => f.info = max h (height f.sibling) + 1 ∧ Measured k f.info

/-- The ancestors but the nearest one have the heights of their children. -/
def TAvlPath.MeasuredAbove : TAvlPath T → Prop
  | [] => True
  | f :: k => Measured k f.info

open TAvlPath

theorem reheight_of_measured {h : Nat} (hmeasured : k.Measured h) : k.reheight h = k := by
  induction k generalizing h with
  | nil => rfl
  | cons f k ih =>
    obtain ⟨hf, hk⟩ := hmeasured
    rw [reheight, ← hf, ih hk]

theorem measured_reheight (k : TAvlPath T) (h : Nat) : (k.reheight h).Measured h := by
  induction k generalizing h with
  | nil => trivial
  | cons f k ih => exact ⟨rfl, ih _⟩

theorem TAvlPath.Measured.above {h : Nat} (hmeasured : k.Measured h) : k.MeasuredAbove := by
  cases k with
  | nil => trivial
  | cons f k => exact hmeasured.2

@[simp] theorem length_reheight (k : TAvlPath T) (h : Nat) : (k.reheight h).length = k.length := by
  induction k generalizing h with
  | nil => rfl
  | cons f k ih => rw [reheight, List.length_cons, List.length_cons, ih]

@[simp] theorem ptr_reheight (k : TAvlPath T) (h : Nat) : (k.reheight h).ptr none = k.ptr none := by
  cases k <;> rfl

variable [DecidableEq T]

/-- `Height_` of the nearest ancestor is set. -/
theorem Lies.setHeight (hlies : Lies m root (f :: k) t) (n : Nat) :
    Lies (m.modify f.val (setInfo n)) root ({ f with info := n } :: k) t := by
  rw [lies_cons] at hlies ⊢
  obtain ⟨d, h, x, s⟩ := f
  cases d with
  | left | right => exact at_setInfo (g := fun _ => n) hlies rfl

theorem recalcHeights_lies {fuel : Nat} (hlies : Lies m root k t) (hmeasured : k.MeasuredAbove)
    (hfuel : k.length < fuel) :
    ∃ m', recalcHeights fuel m (k.ptr none) = some m' ∧ Lies m' root (k.reheight t.height) t := by
  induction k generalizing m t fuel with
  | nil =>
    obtain ⟨fuel, rfl⟩ := Nat.exists_eq_add_one.2 hfuel.pos
    exact ⟨m, rfl, hlies⟩
  | cons f k ih =>
    obtain ⟨fuel, rfl⟩ := Nat.exists_eq_add_one.2 hfuel.pos
    obtain ⟨hinfo, hparent, -⟩ := hlies.frame
    rw [Path.ptr, recalcHeights, hlies.newHeight_eq, hinfo, hparent]
    split
    · next heq =>
      -- from here on nothing changes
      have hall : Measured (f :: k) t.height := ⟨heq.symm, hmeasured⟩
      exact ⟨m, rfl, by rwa [reheight_of_measured hall]⟩
    · have hset := hlies.setHeight (max t.height (height f.sibling) + 1)
      rw [lies_cons] at hset
      obtain ⟨m', hrecalc, hlies'⟩ :=
        ih hset (Measured.above hmeasured) (Nat.lt_of_succ_lt_succ hfuel)
      rw [Frame.plug, TTreeItem.height_sided] at hlies'
      exact ⟨m', hrecalc, lies_cons.2 hlies'⟩

end Heights

/-! ### `Rebalance` -/

section Link

variable {m : TAvlMemory T} {root ggp : Option T} {k : TAvlPath T} {el : T}

/-- The subtrees that `Rebalance` puts below `a` and `c`, and what is around them, with every node
in one place. -/
structure Arranged (m : TAvlMemory T) (root : Option T) (k : TAvlPath T) (gp : T) (t1 : TTreeItem T)
    (a : T) (t2 : TTreeItem T) (b : T) (t3 : TTreeItem T) (c : T) (t4 : TTreeItem T) : Prop where
  hangs : Hangs id m none root k (some gp)
  notMem : gp ∉ k.elems
  fits : ∀ t ∈ [t1, t2, t3, t4], ∃ q, Fits id m q t
  nodup : (k.elems ++ (t1.toList ++ a :: (t2.toList ++ b :: (t3.toList ++ c :: t4.toList)))).Nodup

variable {gp a b c : T} {t1 t2 t3 t4 : TTreeItem T}

/-- The pointers of the nodes that are arranged. -/
def tripleOf (t1 : TTreeItem T) (a : T) (t2 : TTreeItem T) (b : T) (t3 : TTreeItem T) (c : T)
    (t4 : TTreeItem T) : TTriple T :=
  ⟨a, b, c, t1.ptr, t2.ptr, t3.ptr, t4.ptr⟩

/-- Every node is in one place. -/
structure Apart (t1 : TTreeItem T) (a : T) (t2 : TTreeItem T) (b : T) (t3 : TTreeItem T) (c : T)
    (t4 : TTreeItem T) : Prop where
  ab : a ≠ b
  ac : a ≠ c
  bc : b ≠ c
  notMem_a : ∀ t ∈ [t1, t2, t3, t4], a ∉ t.toList
  notMem_b : ∀ t ∈ [t1, t2, t3, t4], b ∉ t.toList
  notMem_c : ∀ t ∈ [t1, t2, t3, t4], c ∉ t.toList
  nodup : ∀ t ∈ [t1, t2, t3, t4], t.toList.Nodup
  disjoint : [t1, t2, t3, t4].Pairwise fun t t' => t.toList.Disjoint t'.toList

theorem apart_of_nodup (hnodup :
    (t1.toList ++ a :: (t2.toList ++ b :: (t3.toList ++ c :: t4.toList))).Nodup) :
    Apart t1 a t2 b t3 c t4 := by
  simp only [List.nodup_append, List.nodup_cons, List.mem_append, List.mem_cons, not_or] at hnodup
  constructor
  case ab | ac | bc => grind
  case disjoint =>
    simp only [List.pairwise_cons, List.forall_mem_cons, List.disjoint_left]
    grind
  all_goals
    simp only [List.forall_mem_cons]
    grind

/-- A pointer to a node of one subtree is not one to a node of another. -/
theorem ptr_ne_of_disjoint {t t' : TTreeItem T} {v : T} (h : t.toList.Disjoint t'.toList)
    (hv : v ∈ t.toList) : t'.ptr ≠ some v :=
  ptr_ne fun hmem => h hv hmem

variable [DecidableEq T]

/-- The side of the parent is found. -/
theorem setInParent_eq (hhangs : Hangs id m none root k (some el)) (hel : el ∉ k.elems)
    (new : Option T) : setInParent m root (k.ptr none) el new = hang m root k new := by
  cases k with
  | nil => rfl
  | cons f k =>
    obtain ⟨-, -, hchild, hother, -⟩ := hhangs
    obtain ⟨d, h, x, s⟩ := f
    show (if (m x).left = some el then _ else _) = _
    cases d with
    | left => exact if_pos hchild
    | right =>
      have hsib : (m x).left ≠ some el := by
        rw [show (m x).left = s.ptr from hother]
        exact ptr_ne fun hmem => hel (Path.mem_elems_cons.2 (.inr (.inl hmem)))
      exact if_neg hsib

theorem link_a (h : Apart t1 a t2 b t3 c t4) :
    link m ggp (tripleOf t1 a t2 b t3 c t4) a = ⟨(m a).info, some b, t1.ptr, t2.ptr⟩ := by
  have hp := fun t ht => ptr_ne (h.notMem_a t ht)
  simp only [List.forall_mem_cons] at hp
  simp [link, tripleOf, modify_apply, modify?_apply, h.ab, h.ac, hp, setChild, setParent]

theorem link_b (h : Apart t1 a t2 b t3 c t4) :
    link m ggp (tripleOf t1 a t2 b t3 c t4) b = ⟨(m b).info, ggp, some a, some c⟩ := by
  have hp := fun t ht => ptr_ne (h.notMem_b t ht)
  simp only [List.forall_mem_cons] at hp
  simp [link, tripleOf, modify_apply, modify?_apply, h.ab.symm, h.bc, hp, setChild, setParent]

theorem link_c (h : Apart t1 a t2 b t3 c t4) :
    link m ggp (tripleOf t1 a t2 b t3 c t4) c = ⟨(m c).info, some b, t3.ptr, t4.ptr⟩ := by
  have hp := fun t ht => ptr_ne (h.notMem_c t ht)
  simp only [List.forall_mem_cons] at hp
  simp [link, tripleOf, modify_apply, modify?_apply, h.ac.symm, h.bc.symm, hp, setChild,
    setParent]

/-- What the links of another node become. -/
theorem link_of_ne {v : T} (ha : v ≠ a) (hb : v ≠ b) (hc : v ≠ c) :
    link m ggp (tripleOf t1 a t2 b t3 c t4) v =
      ((((m.modify? t1.ptr (setParent (some a))).modify? t2.ptr (setParent (some a))).modify? t3.ptr
        (setParent (some c))).modify? t4.ptr (setParent (some c))) v := by
  simp [link, tripleOf, modify_apply, modify?_apply, ha, hb, hc]

theorem link_of_notMem {v : T} (ha : v ≠ a) (hb : v ≠ b) (hc : v ≠ c)
    (h : ∀ t ∈ [t1, t2, t3, t4], v ∉ t.toList) :
    link m ggp (tripleOf t1 a t2 b t3 c t4) v = m v := by
  have hp := fun t ht => ptr_ne (h t ht)
  simp only [List.forall_mem_cons] at hp
  rw [link_of_ne ha hb hc, modify?_of_ne hp.2.2.2.1, modify?_of_ne hp.2.2.1,
    modify?_of_ne hp.2.1, modify?_of_ne hp.1]

/-- The subtrees get their new parents. -/
theorem link_fits (h : Apart t1 a t2 b t3 c t4)
    (hfits : ∀ t ∈ [t1, t2, t3, t4], ∃ q, Fits id m q t) :
    let m' := link m ggp (tripleOf t1 a t2 b t3 c t4)
    Fits id m' (some a) t1 ∧ Fits id m' (some a) t2 ∧ Fits id m' (some c) t3 ∧
      Fits id m' (some c) t4 := by
  intro m'
  have hne : ∀ t ∈ [t1, t2, t3, t4], ∀ v ∈ t.toList, v ≠ a ∧ v ≠ b ∧ v ≠ c := fun t ht v hv =>
    ⟨ne_of_mem_of_not_mem hv (h.notMem_a t ht), ne_of_mem_of_not_mem hv (h.notMem_b t ht),
      ne_of_mem_of_not_mem hv (h.notMem_c t ht)⟩
  have hmoved : ∀ t ∈ [t1, t2, t3, t4], ∀ q,
      (∀ v ∈ t.toList, m' v = m.modify? t.ptr (setParent q) v) →
      Fits id m' q t := by
    intro t ht q hv
    obtain ⟨q', hq'⟩ := hfits t ht
    exact fits_moved hq' (h.nodup t ht) hv
  have hdisj := h.disjoint
  simp only [List.pairwise_cons, List.forall_mem_cons] at hdisj
  obtain ⟨⟨h12, h13, h14, -⟩, ⟨h23, h24, -⟩, ⟨h34, -⟩, -⟩ := hdisj
  refine ⟨hmoved t1 (by simp) _ fun v hv => ?_, hmoved t2 (by simp) _ fun v hv => ?_,
    hmoved t3 (by simp) _ fun v hv => ?_, hmoved t4 (by simp) _ fun v hv => ?_⟩
  all_goals
    obtain ⟨ha, hb, hc⟩ := hne _ (by simp) v hv
    show link m ggp _ v = _
    rw [link_of_ne ha hb hc]
    simp only [modify?_apply]
  · rw [if_neg (ptr_ne_of_disjoint h14 hv), if_neg (ptr_ne_of_disjoint h13 hv),
      if_neg (ptr_ne_of_disjoint h12 hv)]
  · rw [if_neg (ptr_ne_of_disjoint h24 hv), if_neg (ptr_ne_of_disjoint h23 hv),
      if_neg (ptr_ne_of_disjoint h12.symm hv)]
  · rw [if_neg (ptr_ne_of_disjoint h34 hv), if_neg (ptr_ne_of_disjoint h23.symm hv),
      if_neg (ptr_ne_of_disjoint h13.symm hv)]
  · rw [if_neg (ptr_ne_of_disjoint h34.symm hv), if_neg (ptr_ne_of_disjoint h24.symm hv),
      if_neg (ptr_ne_of_disjoint h14.symm hv)]

theorem Arranged.link_lies (h : Arranged m root k gp t1 a t2 b t3 c t4) :
    ∃ i j l, Lies (link (hang m root k (some b)).1 (k.ptr none) (tripleOf t1 a t2 b t3 c t4))
      (hang m root k (some b)).2 k (node j (node i t1 a t2) b (node l t3 c t4)) := by
  obtain ⟨hpath, hnodup, hdisj⟩ := List.nodup_append'.1 h.nodup
  have hapart := apart_of_nodup hnodup
  have hmem : ∀ t ∈ [t1, t2, t3, t4], ∀ v ∈ t.toList,
      v ∈ t1.toList ++ a :: (t2.toList ++ b :: (t3.toList ++ c :: t4.toList)) := by
    intro t ht v hv
    simp only [List.mem_append, List.mem_cons, List.not_mem_nil, or_false] at ht ⊢
    rcases ht with rfl | rfl | rfl | rfl <;> simp only [hv, true_or, or_true]
  set m' := (hang m root k (some b)).1 with hm'
  have hfits : ∀ t ∈ [t1, t2, t3, t4], ∃ q, Fits id m' q t := by
    intro t ht
    obtain ⟨q, hq⟩ := h.fits t ht
    refine ⟨q, (fits_congr fun v hv => .of_eq ?_).2 hq⟩
    exact hang_of_notMem root _ fun hk => hdisj hk (hmem t ht v hv)
  obtain ⟨h1, h2, h3, h4⟩ := @link_fits _ _ (k.ptr none) _ _ _ _ _ _ _ _ hapart hfits
  refine ⟨(m' a).info, (m' b).info, (m' c).info, ?_, ?_, ?_⟩
  · refine (hangs_congr fun v hv => .of_eq ?_).2 (hangs_hang h.hangs hpath (some b))
    have hv' : ∀ w ∈ t1.toList ++ a :: (t2.toList ++ b :: (t3.toList ++ c :: t4.toList)), v ≠ w :=
      fun w hw heq => hdisj hv (heq ▸ hw)
    exact link_of_notMem (hv' a (by simp)) (hv' b (by simp)) (hv' c (by simp)) fun t ht hvt =>
      hv' v (hmem t ht v hvt) rfl
  · simp only [Fits, link_a hapart, link_b hapart, link_c hapart, true_and]
    exact ⟨rfl, rfl, rfl, ⟨rfl, h1, h2⟩, rfl, h3, h4⟩
  · simpa using h.nodup

theorem linkHeights_lies {i j l : Nat}
    (hlies : Lies m root k (node j (node i t1 a t2) b (node l t3 c t4))) :
    Lies (linkHeights m (tripleOf t1 a t2 b t3 c t4)) root k (.rebuild t1 a t2 b t3 c t4) := by
  have hla : Lies m root (⟨.left, i, a, t2⟩ :: ⟨.left, j, b, node l t3 c t4⟩ :: k) t1 :=
    lies_cons.2 (lies_cons.2 hlies)
  have hsa := hla.setHeight (newHeight m a)
  rw [lies_cons, lies_cons] at hsa
  set m1 := m.modify a (setInfo (newHeight m a)) with hm1
  have hlc : Lies m1 root (⟨.left, l, c, t4⟩ :: ⟨.right, j, b, node (newHeight m a) t1 a t2⟩ :: k)
      t3 :=
    lies_cons.2 (lies_cons.2 hsa)
  have hsc := hlc.setHeight (newHeight m1 c)
  rw [lies_cons] at hsc
  set m2 := m1.modify c (setInfo (newHeight m1 c)) with hm2
  have hlb : Lies m2 root (⟨.left, j, b, node (newHeight m1 c) t3 c t4⟩ :: k)
      (node (newHeight m a) t1 a t2) :=
    lies_cons.2 (lies_cons.1 hsc :)
  have hinfo_a : (m2 a).info = newHeight m a := (hlb.links (d := .left)).1
  have hinfo_c : (m2 c).info = newHeight m1 c := (hsc.links (d := .left)).1
  have hsb := lies_cons.1 (hlb.setHeight (max (newHeight m a) (newHeight m1 c) + 1))
  show Lies (m2.modify b (setInfo (max (m2 a).info (m2 c).info + 1))) root k _
  rw [hinfo_a, hinfo_c]
  have ha := hla.newHeight_eq
  have hc := hlc.newHeight_eq
  dsimp only at ha hc
  rw [TTreeItem.rebuild, TTreeItem.recalc, TTreeItem.recalc, TTreeItem.recalc, ← ha, ← hc]
  exact hsb

/-- `Rebalance`, up to the heights of the ancestors. -/
theorem Arranged.rebuild_lies (h : Arranged m root k gp t1 a t2 b t3 c t4) :
    Lies (linkHeights (link (setInParent m root (k.ptr none) gp (some b)).1 (k.ptr none)
      (tripleOf t1 a t2 b t3 c t4))
        (tripleOf t1 a t2 b t3 c t4)) (setInParent m root (k.ptr none) gp (some b)).2 k
          (.rebuild t1 a t2 b t3 c t4) := by
  obtain ⟨i, j, l, hlies⟩ := h.link_lies
  rw [setInParent_eq h.hangs h.notMem]
  exact linkHeights_lies hlies

end Link

section Rebalance

variable [DecidableEq T] {s : TAvlState T} {k : TAvlPath T} {fuel : Nat} {n p gp a b c : T}
  {t1 t2 t3 t4 : TTreeItem T}

/-- Only nodes and the root are other ones. -/
structure Rearranged (s s' : TAvlState T) : Prop where
  tree : s'.tree = s.tree
  head : s'.head = s.head
  tail : s'.tail = s.tail

omit [DecidableEq T] in
theorem Rearranged.trans {s s' s'' : TAvlState T} (h' : Rearranged s' s'') (h : Rearranged s s') :
    Rearranged s s'' :=
  ⟨h'.tree.trans h.tree, h'.head.trans h.head, h'.tail.trans h.tail⟩

theorem rebalance_of_triple (hn : (s.nodes n).parent = some p) (hp : (s.nodes p).parent = some gp)
    (hgp : (s.nodes gp).parent = k.ptr none)
    (htriple : triple s.nodes n p gp = tripleOf t1 a t2 b t3 c t4)
    (harranged : Arranged s.nodes s.root k gp t1 a t2 b t3 c t4) (hmeasured : k.MeasuredAbove)
    (hfuel : k.length < fuel) :
    ∃ s', s.rebalance fuel n = some (s', k.ptr none) ∧ Rearranged s s' ∧
      Lies s'.nodes s'.root (k.reheight (TTreeItem.rebuild t1 a t2 b t3 c t4).height)
        (.rebuild t1 a t2 b t3 c t4) := by
  obtain ⟨m', hrecalc, hlies⟩ := recalcHeights_lies harranged.rebuild_lies hmeasured hfuel
  refine ⟨{ s with nodes := m', root := (setInParent s.nodes s.root (k.ptr none) gp (some b)).2 },
    ?_, ⟨rfl, rfl, rfl⟩, hlies⟩
  simp only [TAvlState.rebalance, hn, hp, hgp, Option.bind_eq_bind, Option.bind_some, htriple]
  rw [show (tripleOf t1 a t2 b t3 c t4).b = b from rfl, hrecalc]
  rfl

variable {n1 n2 u w : TTreeItem T} {hn hp hgp : Nat}

/-- What `Rebalance(n)` makes of `gp`, `p` on its side `d` and `n` on the side `e` of `p`. -/
def arrange (d e : Side) (n1 : TTreeItem T) (n : T) (n2 : TTreeItem T) (p : T) (u : TTreeItem T)
    (gp : T) (w : TTreeItem T) : TTreeItem T :=
  match d, e with
  | .right, .right => .rebuild w gp u p n1 n n2
  | .right, .left => .rebuild w gp n1 n n2 p u
  | .left, .right => .rebuild u p n1 n n2 gp w
  | .left, .left => .rebuild n1 n n2 p u gp w

omit [DecidableEq T] in
theorem forall_fits {m : TAvlMemory T} {q1 q2 q3 q4 : Option T} (h1 : Fits id m q1 t1)
    (h2 : Fits id m q2 t2) (h3 : Fits id m q3 t3) (h4 : Fits id m q4 t4) :
    ∀ t ∈ [t1, t2, t3, t4], ∃ q, Fits id m q t := by
  simp only [List.forall_mem_cons]
  exact ⟨⟨q1, h1⟩, ⟨q2, h2⟩, ⟨q3, h3⟩, ⟨q4, h4⟩, by simp⟩

theorem rebalance_lies {d e : Side}
    (hlies : Lies s.nodes s.root k (sided d hgp (sided e hp (node hn n1 n n2) p u) gp w))
    (hmeasured : k.MeasuredAbove) (hfuel : k.length < fuel) :
    ∃ s', s.rebalance fuel n = some (s', k.ptr none) ∧ Rearranged s s' ∧
      Lies s'.nodes s'.root (k.reheight (arrange d e n1 n n2 p u gp w).height)
        (arrange d e n1 n n2 p u gp w) := by
  have hhangs : Hangs id s.nodes none s.root k (some gp) := by
    have hhangs := hlies.hangs
    rwa [ptr_sided] at hhangs
  have hnotMem : gp ∉ k.elems := hlies.notMem_path (by simp)
  have hfits := hlies.fits
  have hnodup := hlies.nodup
  rw [fits_sided, fits_sided, Fits, ptr_sided] at hfits
  obtain ⟨-, hgp, hgp_p, hgp_w, ⟨-, hp, hp_n, hp_u, ⟨-, hn, hn_1, hn_2, h1, h2⟩, hu⟩, hw⟩ := hfits
  obtain ⟨hwp, hun⟩ : w.ptr ≠ some p ∧ u.ptr ≠ some n := by
    have htree := hlies.disjoint.2.1
    rw [nodup_sided, nodup_sided] at htree
    obtain ⟨-, -, ⟨-, -, -, -, hnu⟩, -, hpw⟩ := htree
    exact ⟨ptr_ne fun hmem => hpw (by simp) hmem, ptr_ne fun hmem => hnu (by simp) hmem⟩
  cases d with
  | right =>
    have hright : (s.nodes gp).right = some p := hgp_p
    have hleft : (s.nodes gp).left = w.ptr := hgp_w
    cases e with
    | right =>
      have htriple : triple s.nodes n p gp = tripleOf w gp u p n1 n n2 := by
        rw [triple, if_pos hright, if_pos (show (s.nodes p).right = some n from hp_n), hleft, hn_1,
          hn_2, show (s.nodes p).left = u.ptr from hp_u]
        rfl
      refine rebalance_of_triple hn hp hgp htriple ⟨hhangs, hnotMem, ?_, ?_⟩ hmeasured hfuel
      · exact forall_fits hw hu h1 h2
      · simpa [sided] using hnodup
    | left =>
      have hp_right : (s.nodes p).right = u.ptr := hp_u
      have htriple : triple s.nodes n p gp = tripleOf w gp n1 n n2 p u := by
        rw [triple, if_pos hright, if_neg (hp_right.trans_ne hun), hleft, hn_1, hn_2, hp_right]
        rfl
      refine rebalance_of_triple hn hp hgp htriple ⟨hhangs, hnotMem, ?_, ?_⟩ hmeasured hfuel
      · exact forall_fits hw h1 h2 hu
      · simpa [sided] using hnodup
  | left =>
    have hright : (s.nodes gp).right = w.ptr := hgp_w
    have hne : (s.nodes gp).right ≠ some p := hright.trans_ne hwp
    cases e with
    | right =>
      have htriple : triple s.nodes n p gp = tripleOf u p n1 n n2 gp w := by
        rw [triple, if_neg hne, if_pos (show (s.nodes p).right = some n from hp_n), hright, hn_1,
          hn_2, show (s.nodes p).left = u.ptr from hp_u]
        rfl
      refine rebalance_of_triple hn hp hgp htriple ⟨hhangs, hnotMem, ?_, ?_⟩ hmeasured hfuel
      · exact forall_fits hu h1 h2 hw
      · simpa [sided] using hnodup
    | left =>
      have hp_right : (s.nodes p).right = u.ptr := hp_u
      have htriple : triple s.nodes n p gp = tripleOf n1 n n2 p u gp w := by
        rw [triple, if_neg hne, if_neg (hp_right.trans_ne hun), hright, hn_1, hn_2, hp_right]
        rfl
      refine rebalance_of_triple hn hp hgp htriple ⟨hhangs, hnotMem, ?_, ?_⟩ hmeasured hfuel
      · exact forall_fits h1 h2 hu hw
      · simpa [sided] using hnodup

end Rebalance

section Unbalanced

variable {m : TAvlMemory T} {root : Option T} {s : TAvlState T} {k : TAvlPath T} {fuel : Nat}
  {l r a b : TTreeItem T} {x y : T} {h h' : Nat}

theorem Lies.children (hlies : Lies m root k (node h l x r)) :
    (m x).left = l.ptr ∧ (m x).right = r.ptr ∧ heightOf m (m x).left = l.height ∧
      heightOf m (m x).right = r.height := by
  obtain ⟨-, -, hleft, hright⟩ := links (d := .left) hlies
  have hl : Lies m root (⟨.left, h, x, r⟩ :: k) l := lies_cons.2 hlies
  have hr : Lies m root (⟨.right, h, x, l⟩ :: k) r := lies_cons.2 hlies
  refine ⟨hleft, hright, ?_, ?_⟩
  · rw [show (m x).left = l.ptr from hleft, hl.heightOf_ptr]
  · rw [show (m x).right = r.ptr from hright, hr.heightOf_ptr]

theorem unbalGrandchild_right (hlies : Lies m root k (node h l x (node h' a y b)))
    (hlt : l.height < height (node h' a y b)) :
    unbalGrandchild m x = if b.height < a.height then a.ptr else b.ptr := by
  obtain ⟨-, hright, hl, hr⟩ := hlies.children
  have hy : Lies m root (⟨.right, h, x, l⟩ :: k) (node h' a y b) := lies_cons.2 hlies
  obtain ⟨hya, hyb, ha, hb⟩ := hy.children
  rw [unbalGrandchild, hl, hr, if_pos hlt, hright]
  simp only [show (node h' a y b).ptr = some y from rfl, Option.bind_eq_bind, Option.bind_some]
  rw [ha, hb, hya, hyb]
  split_ifs <;> first | rfl | omega

theorem unbalGrandchild_left (hlies : Lies m root k (node h (node h' a y b) x r))
    (hle : r.height ≤ height (node h' a y b)) :
    unbalGrandchild m x = if a.height < b.height then b.ptr else a.ptr := by
  obtain ⟨hleft, -, hl, hr⟩ := hlies.children
  have hy : Lies m root (⟨.left, h, x, r⟩ :: k) (node h' a y b) := lies_cons.2 hlies
  obtain ⟨hya, hyb, ha, hb⟩ := hy.children
  rw [unbalGrandchild, hl, hr, if_neg (Nat.not_lt.2 hle), hleft]
  simp only [show (node h' a y b).ptr = some y from rfl, Option.bind_eq_bind, Option.bind_some]
  rw [ha, hb, hya, hyb]
  split_ifs <;> rfl

/-- One turn of the loop of `EraseImpl` at the node `x`. -/
theorem rebalance_unbalanced [DecidableEq T] (hlies : Lies s.nodes s.root k (node h l x r))
    (hl : l.Heighted) (hr : r.Heighted) (hunbal : l.height + 1 < r.height ∨ r.height + 1 < l.height)
    (hmeasured : k.MeasuredAbove) (hfuel : k.length < fuel) :
    ∃ n s', unbalGrandchild s.nodes x = some n ∧ s.rebalance fuel n = some (s', k.ptr none) ∧
      Rearranged s s' ∧
      Lies s'.nodes s'.root (k.reheight (TTreeItem.rebalance l x r).height) (.rebalance l x r) := by
  rcases hunbal with hgt | hgt
  · cases r with
    | nil => cases hgt
    | node h' a y b =>
      obtain ⟨-, -, rfl⟩ := hr
      have hchild := unbalGrandchild_right hlies (Nat.lt_of_succ_lt hgt)
      by_cases hlt : height b < height a
      · cases a with
        | nil => cases hlt
        | node hz t2 z t3 =>
          rw [if_pos hlt] at hchild
          obtain ⟨s', hs'⟩ := rebalance_lies (d := .right) (e := .left) hlies hmeasured hfuel
          simp only [TTreeItem.rebalance, if_pos hgt, if_pos hlt]
          exact ⟨z, s', hchild, hs'⟩
      · cases b with
        | nil => rw [TTreeItem.height_node, TTreeItem.height_nil] at *; omega
        | node hz t3 z t4 =>
          rw [if_neg hlt] at hchild
          obtain ⟨s', hs'⟩ := rebalance_lies (d := .right) (e := .right) hlies hmeasured hfuel
          simp only [TTreeItem.rebalance, if_pos hgt, if_neg hlt]
          exact ⟨z, s', hchild, hs'⟩
  · have hngt : ¬l.height + 1 < r.height := by omega
    cases l with
    | nil => cases hgt
    | node h' a y b =>
      obtain ⟨-, -, rfl⟩ := hl
      have hchild := unbalGrandchild_left hlies (Nat.le_of_succ_le (Nat.le_of_succ_le hgt))
      by_cases hlt : height a < height b
      · cases b with
        | nil => cases hlt
        | node hz t2 z t3 =>
          rw [if_pos hlt] at hchild
          obtain ⟨s', hs'⟩ := rebalance_lies (d := .left) (e := .right) hlies hmeasured hfuel
          simp only [TTreeItem.rebalance, if_neg hngt, if_pos hgt, if_pos hlt]
          exact ⟨z, s', hchild, hs'⟩
      · cases a with
        | nil => rw [TTreeItem.height_node, TTreeItem.height_nil] at *; omega
        | node hz t1 z t2 =>
          rw [if_neg hlt] at hchild
          obtain ⟨s', hs'⟩ := rebalance_lies (d := .left) (e := .left) hlies hmeasured hfuel
          simp only [TTreeItem.rebalance, if_neg hngt, if_pos hgt, if_neg hlt]
          exact ⟨z, s', hchild, hs'⟩

end Unbalanced

/-! ### The loop of `EraseImpl` -/

/-- The node after a change on its side. -/
def TAvlFrame.fix (f : TAvlFrame T) (t : TTreeItem T) : TTreeItem T :=
  match f.side with
  | .left => .rebalance t f.val f.sibling
  | .right => .rebalance f.sibling f.val t

/-- The whole tree after a change in a place. -/
def TAvlPath.fixup : TAvlPath T → TTreeItem T → TTreeItem T
  | [], t => t
  | f :: k, t => fixup k (TAvlFrame.fix f t)

section Fixup

variable {k k' : TAvlPath T} {f : TAvlFrame T} {t : TTreeItem T} {h n : Nat}

open TAvlPath

theorem fixup_append (k k' : TAvlPath T) (t : TTreeItem T) :
    fixup (k ++ k') t = k'.fixup (k.fixup t) := by
  induction k generalizing t with
  | nil => rfl
  | cons f k ih => exact ih (TAvlFrame.fix f t)

@[simp] theorem fixup_reheight (k : TAvlPath T) (h : Nat) (t : TTreeItem T) :
    (k.reheight h).fixup t = k.fixup t := by
  induction k generalizing h t with
  | nil => rfl
  | cons f k ih => exact ih _ (TAvlFrame.fix f t)

theorem TAvlPath.Measured.of_append (hmeasured : Measured (k ++ k') h) : ∃ h', k'.Measured h' := by
  induction k generalizing h with
  | nil => exact ⟨h, hmeasured⟩
  | cons f k ih => exact ih hmeasured.2

@[simp] theorem toList_fix (f : TAvlFrame T) (t : TTreeItem T) :
    (f.fix t).toList = (f.plug t).toList := by
  obtain ⟨d, h, x, s⟩ := f
  cases d <;> exact TTreeItem.toList_rebalance ..

/-- A node in balance only gets its height. -/
theorem fix_of_balanced (hle : t.height ≤ height f.sibling + 1)
    (hge : height f.sibling ≤ t.height + 1) (hf : f.info = max t.height (height f.sibling) + 1) :
    f.fix t = f.plug t := by
  obtain ⟨d, n, x, s⟩ := f
  dsimp only at hle hge hf
  cases d with
  | left =>
    rw [TAvlFrame.fix, Frame.plug, sided, hf]
    simp only [TTreeItem.rebalance, if_neg (Nat.not_lt.2 hle), if_neg (Nat.not_lt.2 hge),
      TTreeItem.recalc]
  | right =>
    rw [TAvlFrame.fix, Frame.plug, sided, hf, max_comm]
    simp only [TTreeItem.rebalance, if_neg (Nat.not_lt.2 hle), if_neg (Nat.not_lt.2 hge),
      TTreeItem.recalc]

theorem heighted_fix (ht : t.Heighted) (hs : Heighted f.sibling) : (f.fix t).Heighted := by
  obtain ⟨d, n, x, s⟩ := f
  cases d with
  | left => exact TTreeItem.heighted_rebalance x ht hs
  | right => exact TTreeItem.heighted_rebalance x hs ht

theorem heighted_fixup (hk : ∀ f ∈ k, Heighted f.sibling) (ht : t.Heighted) :
    (k.fixup t).Heighted := by
  induction k generalizing t with
  | nil => exact ht
  | cons f k ih =>
    rw [List.forall_mem_cons] at hk
    exact ih hk.2 (heighted_fix ht hk.1)

theorem heighted_reheight (hk : ∀ f ∈ k, Heighted f.sibling) (n : Nat) :
    ∀ f ∈ k.reheight n, Heighted f.sibling := by
  induction k generalizing n with
  | nil => exact hk
  | cons f k ih =>
    rw [List.forall_mem_cons] at hk
    exact List.forall_mem_cons.2 ⟨hk.1, ih hk.2 _⟩

theorem toList_fixup (k : TAvlPath T) (t : TTreeItem T) :
    (k.fixup t).toList = (k.plug t).toList := by
  induction k generalizing t with
  | nil => rfl
  | cons f k ih =>
    rw [TAvlPath.fixup, ih, Path.toList_plug, toList_fix, ← Path.toList_plug, Path.plug]

end Fixup

section FixLoop

variable {m : TAvlMemory T} {root : Option T} {s : TAvlState T} {k : TAvlPath T} {f : TAvlFrame T}
  {t : TTreeItem T} {fuel : Nat}

open TAvlPath

/-- Where the loop stops, and up to where nothing is to be done. -/
theorem findFirstUnbalEl_lies (hlies : Lies m root k t) (hmeasured : k.Measured t.height)
    (hfuel : k.length < fuel) :
    (findFirstUnbalEl m fuel (k.ptr none) = some none ∧ k.fixup t = k.plug t) ∨
    ∃ (k₁ : TAvlPath T) (f : TAvlFrame T) (k₂ : TAvlPath T), k = k₁ ++ f :: k₂ ∧
      findFirstUnbalEl m fuel (k.ptr none) = some (some f.val) ∧ k₁.fixup t = k₁.plug t ∧
      (height (k₁.plug t) + 1 < height f.sibling ∨ height f.sibling + 1 < height (k₁.plug t)) := by
  induction k generalizing t fuel with
  | nil =>
    obtain ⟨fuel, rfl⟩ := Nat.exists_eq_add_one.2 hfuel.pos
    exact .inl ⟨rfl, rfl⟩
  | cons f k ih =>
    obtain ⟨fuel, rfl⟩ := Nat.exists_eq_add_one.2 hfuel.pos
    obtain ⟨hf, hk⟩ := hmeasured
    rw [Path.ptr, findFirstUnbalEl, hlies.frame.2.1]
    by_cases hunbal : isUnbal m f.val = true
    · rw [if_pos hunbal]
      exact .inr ⟨[], f, k, rfl, rfl, rfl, hlies.isUnbal_iff.1 hunbal⟩
    · rw [if_neg hunbal]
      rw [hlies.isUnbal_iff, not_or, Nat.not_lt, Nat.not_lt] at hunbal
      have hfix : TAvlFrame.fix f t = f.plug t := fix_of_balanced hunbal.2 hunbal.1 hf
      have hplug : height (f.plug t) = f.info := TTreeItem.height_sided
      rw [TAvlPath.fixup, Path.plug, hfix]
      rcases ih (lies_cons.1 hlies) (by rwa [hplug]) (Nat.lt_of_succ_lt_succ hfuel) with
        hnone | ⟨k₁, g, k₂, rfl, hfind, hfixup, hg⟩
      · exact .inl hnone
      · refine .inr ⟨f :: k₁, g, k₂, rfl, hfind, ?_, hg⟩
        rw [TAvlPath.fixup, Path.plug, hfix, hfixup]

variable [DecidableEq T]

/-- One turn at the nearest ancestor. -/
theorem rebalance_frame (hlies : Lies s.nodes s.root (f :: k) t) (ht : t.Heighted)
    (hs : Heighted f.sibling)
    (hunbal : t.height + 1 < height f.sibling ∨ height f.sibling + 1 < t.height)
    (hmeasured : k.MeasuredAbove) (hfuel : k.length < fuel) :
    ∃ n s', unbalGrandchild s.nodes f.val = some n ∧ s.rebalance fuel n = some (s', k.ptr none) ∧
      Rearranged s s' ∧
      Lies s'.nodes s'.root (k.reheight (f.fix t).height) (f.fix t) := by
  rw [lies_cons] at hlies
  obtain ⟨d, h, x, u⟩ := f
  cases d with
  | left => exact rebalance_unbalanced hlies ht hs hunbal hmeasured hfuel
  | right => exact rebalance_unbalanced hlies hs ht hunbal.symm hmeasured hfuel

/-- The loop of `EraseImpl` goes up to the root. -/
theorem fixLoop_lies {turns : Nat} (hlies : Lies s.nodes s.root k t)
    (hmeasured : k.Measured t.height) (hk : ∀ f ∈ k, Heighted f.sibling) (ht : t.Heighted)
    (hfuel : k.length < fuel) (hturns : k.length < turns) :
    ∃ s', s.fixLoop fuel turns (k.ptr none) = some s' ∧ Rearranged s s' ∧
      Lies s'.nodes s'.root [] (k.fixup t) := by
  induction hlen : k.length using Nat.strongRecOn generalizing k t s turns with
  | ind len ih =>
    obtain ⟨turns, rfl⟩ := Nat.exists_eq_add_one.2 hturns.pos
    rcases findFirstUnbalEl_lies hlies hmeasured hfuel with
      ⟨hfind, hfixup⟩ | ⟨k₁, f, k₂, rfl, hfind, hfixup, hunbal⟩
    · refine ⟨s, ?_, ⟨rfl, rfl, rfl⟩, ?_⟩
      · rw [TAvlState.fixLoop, hfind]
      · rw [hfixup]
        exact lies_plug.1 hlies
    · rw [List.forall_mem_append, List.forall_mem_cons] at hk
      obtain ⟨h₂, hmeasured₂⟩ := hmeasured.of_append
      have ht₁ := heighted_fixup hk.1 ht
      rw [lies_append, ← hfixup] at hlies
      rw [← hfixup] at hunbal
      simp only [List.length_append, List.length_cons] at hlen hfuel hturns
      obtain ⟨n, s₁, hchild, hrebalance, hre₁, hlies₁⟩ :=
        rebalance_frame hlies ht₁ hk.2.1 hunbal (Measured.above hmeasured₂.2)
          (show _ < fuel by omega)
      have hlen₂ := length_reheight k₂ (f.fix (k₁.fixup t)).height
      obtain ⟨s', hloop, hre, hlies'⟩ := ih k₂.length (by omega) hlies₁ (measured_reheight _ _)
        (heighted_reheight hk.2.2 _) (heighted_fix ht₁ hk.2.1)
          (hlen₂.trans_lt (show _ < fuel by omega))
        (hlen₂.trans_lt (show _ < turns by omega)) hlen₂
      refine ⟨s', ?_, hre.trans hre₁, ?_⟩
      · simp only [TAvlState.fixLoop, hfind, hchild, hrebalance, Option.bind_eq_bind,
          Option.bind_some]
        rwa [ptr_reheight] at hloop
      · rwa [fixup_append, TAvlPath.fixup, ← fixup_reheight]

end FixLoop

end Balancer
