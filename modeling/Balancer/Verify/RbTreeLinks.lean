import Balancer.Util.RbTreeLinks

/-!
# Red-black trees in memory and as values
-/

namespace Balancer

open LinkedTree TRbTreeColor TRbTreeNode TRbTreeNodeBase TRbGlobal LinkedTree.Memory LinkedTree.Cell
  LinkedTree.Tree LinkedTree.Path
open Option (bind_eq_bind bind_some)

variable {T : Type}

/-! ### Places -/

namespace TRbTreePath

/-- The node above a place, which is the header for the root. -/
def parent (data : T) : TRbTreePath T → T
  | [] => data
  | f :: _ => f.val

theorem ptr_eq (data : T) (k : TRbTreePath T) : Path.ptr (some data) k = some (k.parent data) := by
  cases k <;> rfl

theorem parent_append_cons (data : T) (k path' : TRbTreePath T) (f : TRbTreeFrame T) :
    parent data (k ++ f :: path') = k.parent f.val := by
  cases k <;> rfl

/-- The place on the other side of a node. -/
theorem plug_other (d : Side) (c : TRbTreeColor) (a : TRbTreeNode T) (v : T) (k : TRbTreePath T)
    (t : TRbTreeNode T) : plug (⟨d.other, c, v, a⟩ :: k) t = k.plug (.sided d c a v t) :=
  congrArg k.plug (sided_other d)

/-- The root does not depend on what hangs below. -/
theorem ptr_plug_cons (f : TRbTreeFrame T) (k : TRbTreePath T) (t t' : TRbTreeNode T) :
    (plug (f :: k) t).ptr = (plug (f :: k) t').ptr := by
  induction k generalizing f t t' with
  | nil => simp only [plug, Frame.plug, ptr_sided]
  | cons g k ih => exact ih g (f.plug t) (f.plug t')

theorem mem_of_ptr_plug_cons {f : TRbTreeFrame T} {k : TRbTreePath T} {t : TRbTreeNode T} {v : T}
    (h : (plug (f :: k) t).ptr = some v) : v ∈ elems (f :: k) := by
  induction k generalizing f t with
  | nil =>
    rw [plug, plug, Frame.plug, ptr_sided] at h
    exact mem_elems_cons.2 (.inl (Option.some.inj h).symm)
  | cons g k ih => exact mem_elems_cons.2 (.inr (.inr (ih h)))

end TRbTreePath

/-! ### Counts -/

section CountedBelow

variable {m m' : TRbMemory T} {t : TRbTreeNode T} {k : TRbTreePath T}

/-- `Children_` of every node is the number of the nodes in its subtree. -/
def CountedBelow (m : TRbMemory T) : TRbTreeNode T → Prop
  | nil => True
  | node _ l v r =>
    (m v).info.children = (l.toList ++ v :: r.toList).length ∧ CountedBelow m l ∧ CountedBelow m r

/-- The same for the nodes around a subtree of `n` nodes. -/
def CountedAround (m : TRbMemory T) : (n : Nat) → TRbTreePath T → Prop
  | _, [] => True
  | n, f :: k =>
    (m f.val).info.children = n + f.sibling.toList.length + 1 ∧ CountedBelow m f.sibling ∧
    CountedAround m (n + f.sibling.toList.length + 1) k

theorem counted_sided {d : Side} {c : TRbTreeColor} {a b : TRbTreeNode T} {v : T} :
    CountedBelow m (sided d c a v b) ↔
      (m v).info.children = a.toList.length + b.toList.length + 1 ∧ CountedBelow m a ∧
      CountedBelow m b := by
  cases d with
  | left =>
    rw [sided, CountedBelow, List.length_append, List.length_cons]
    exact Iff.rfl
  | right =>
    rw [sided, CountedBelow, List.length_append, List.length_cons, ← Nat.add_assoc,
      Nat.add_comm b.toList.length, and_comm (a := CountedBelow m b)]

theorem counted_plug : CountedBelow m (k.plug t) ↔ CountedAround m t.toList.length k ∧
    CountedBelow m t := by
  induction k generalizing t with
  | nil => simp only [plug, CountedAround, true_and]
  | cons f k ih =>
    rw [plug, ih, Frame.plug, length_toList_sided, counted_sided, CountedAround]
    tauto

theorem counted_congr (h : ∀ v ∈ t.toList, (m' v).info.children = (m v).info.children) :
    CountedBelow m' t ↔ CountedBelow m t := by
  induction t with
  | nil => exact Iff.rfl
  | node c l v r ihl ihr =>
    simp only [toList, List.mem_append, List.mem_cons] at h
    rw [CountedBelow, CountedBelow, h v (by simp), ihl fun w hw => h w (.inl hw),
      ihr fun w hw => h w (.inr (.inr hw))]

theorem countedAround_congr {n : Nat}
    (h : ∀ v ∈ k.elems, (m' v).info.children = (m v).info.children) :
    CountedAround m' n k ↔ CountedAround m n k := by
  induction k generalizing n with
  | nil => exact Iff.rfl
  | cons f k ih =>
    simp only [mem_elems_cons] at h
    rw [CountedAround, CountedAround, h f.val (.inl rfl),
      counted_congr fun w hw => h w (.inr (.inl hw)), ih fun w hw => h w (.inr (.inr hw))]

theorem CountedBelow.childrenOf_ptr (h : CountedBelow m t) :
    childrenOf m t.ptr = t.toList.length := by
  cases t with
  | nil => rfl
  | node c l v r => exact h.1

end CountedBelow

/-! ### Trees in memory -/

section Placed

variable {data : T} {m m' : TRbMemory T} {t t' : TRbTreeNode T} {k : TRbTreePath T}

/-- The tree below the header `data`. -/
structure Placed (data : T) (m : TRbMemory T) (t : TRbTreeNode T) : Prop where
  root : At TRbNodeInfo.color m (some data) (m data).parent [] t
  notMem : data ∉ t.toList

namespace Placed

theorem focus (h : Placed data m (k.plug t)) :
    At TRbNodeInfo.color m (some data) (m data).parent k t :=
  at_plug.2 h.root

theorem of_focus (h : At TRbNodeInfo.color m (some data) (m data).parent k t)
    (hdata : data ∉ (k.plug t).toList) : Placed data m (k.plug t) :=
  ⟨at_plug.1 h, hdata⟩

theorem parent_data (h : Placed data m t) : (m data).parent = t.ptr := h.root.hangs

theorem notMem_path (h : Placed data m (k.plug t)) : data ∉ k.elems := fun hmem =>
  h.notMem (mem_toList_plug.2 (.inl hmem))

theorem notMem_tree (h : Placed data m (k.plug t)) : data ∉ t.toList := fun hmem =>
  h.notMem (mem_toList_plug.2 (.inr hmem))

variable {d : Side} {c : TRbTreeColor} {a b : TRbTreeNode T} {v : T}

theorem links (h : Placed data m (k.plug (sided d c a v b))) : (m v).info.color = c ∧
    (m v).parent = some (k.parent data) ∧ (m v).child d = a.ptr ∧ (m v).child d.other = b.ptr := by
  have hfits := h.focus.fits
  rw [fits_sided] at hfits
  obtain ⟨hcolor, hparent, hnear, hfar, -⟩ := hfits
  exact ⟨hcolor, hparent.trans (k.ptr_eq data), hnear, hfar⟩

theorem isRed_ptr (h : Placed data m (k.plug t)) : isRed m t.ptr = decide (t.color = red) := by
  cases t with
  | nil => rfl
  | node c l v r =>
    have hcolor := (links (d := .left) h).1
    rw [Tree.ptr, isRed, hcolor, TRbTreeNode.color]

theorem parent_data_ne {f : TRbTreeFrame T} {v : T} (h : Placed data m (plug (f :: k) t))
    (hv : v ∈ t.toList) : (m data).parent ≠ some v := by
  intro heq
  rw [h.parent_data] at heq
  exact h.focus.disjoint.2.2 (TRbTreePath.mem_of_ptr_plug_cons heq) hv

theorem ptr_sibling_ne {f : TRbTreeFrame T} {v : T} (h : Placed data m (plug (f :: k) t))
    (hv : t.ptr = some v) : f.sibling.ptr ≠ some v := fun heq =>
  h.focus.disjoint.2.2 (mem_elems_cons.2 (.inr (.inl (ptr_mem heq)))) (ptr_mem hv)

theorem ptr_ne_root {f : TRbTreeFrame T} (h : Placed data m (plug (f :: k) t)) :
    t.ptr ≠ (m data).parent := by
  intro heq
  cases t with
  | nil =>
    obtain ⟨u, -, hroot⟩ := h.focus.hangs.exists_root
    cases heq.trans hroot
  | node c l u r => exact h.parent_data_ne (ptr_mem rfl) heq.symm

end Placed

theorem left_ne_and_right_ne {d : Side} {cell : Cell T TRbNodeInfo} {p : Option T}
    (hnear : cell.child d ≠ p) (hfar : cell.child d.other ≠ p) :
    cell.left ≠ p ∧ cell.right ≠ p := by
  cases d with
  | left => exact ⟨hnear, hfar⟩
  | right => exact ⟨hfar, hnear⟩

theorem childrenOf_left_add_right (d : Side) (m : TRbMemory T) (cell : Cell T TRbNodeInfo) :
    childrenOf m cell.left + childrenOf m cell.right =
      childrenOf m (cell.child d) + childrenOf m (cell.child d.other) := by
  cases d with
  | left => rfl
  | right => exact Nat.add_comm _ _

theorem childrenOf_congr {p : Option T} (h : ∀ v ∈ p, (m' v).info.children = (m v).info.children) :
    childrenOf m' p = childrenOf m p := by
  cases p with
  | none => rfl
  | some v => exact h v rfl

theorem color_ne_red {c : TRbTreeColor} : ¬c = red ↔ c = black := by
  cases c <;> decide
/-- A step of a rebalancing: the same elements in the same order, with other links and colors. -/
structure Moved (data : T) (m : TRbMemory T) (t : TRbTreeNode T) (m' : TRbMemory T)
    (t' : TRbTreeNode T) : Prop where
  placed : Placed data m' t'
  toList : t'.toList = t.toList
  header : ∀ d, (m' data).child d = (m data).child d
  frame : ∀ v, v ∉ t.toList → v ≠ data → m' v = m v
  counted : CountedBelow m t → CountedBelow m' t'
  childrenOf_root : childrenOf m' t'.ptr = childrenOf m t.ptr

namespace Moved

theorem refl (h : Placed data m t) : Moved data m t m t :=
  ⟨h, rfl, fun _ => rfl, fun _ _ _ => rfl, id, rfl⟩

theorem trans {m'' : TRbMemory T} {t'' : TRbTreeNode T} (h : Moved data m t m' t')
    (h' : Moved data m' t' m'' t'') : Moved data m t m'' t'' where
  placed := h'.placed
  toList := h'.toList.trans h.toList
  header d := (h'.header d).trans (h.header d)
  frame v hv hdata := (h'.frame v (h.toList ▸ hv) hdata).trans (h.frame v hv hdata)
  counted := h'.counted ∘ h.counted
  childrenOf_root := h'.childrenOf_root.trans h.childrenOf_root

end Moved

end Placed

/-! ### Writes -/

variable [DecidableEq T]

theorem children_modify_setColor (m : TRbMemory T) (a b : T) (c : TRbTreeColor) :
    (m.modify a (setColor c) b).info.children = (m b).info.children :=
  modify_congr (fun cell : Cell T TRbNodeInfo => cell.info.children) fun _ => rfl

section Relink

variable {data x : T} {m : TRbMemory T} {k : Path T TRbTreeColor}

/-- What `relinkParent` writes. -/
def relinked (data : T) (y : Option T) (m : TRbMemory T) : Path T TRbTreeColor → TRbMemory T
  | [] => m.modify data (setParent y)
  | f :: _ => m.modify f.val (setChild f.side y)

theorem relinkParent_eq (d : Side) (y : Option T)
    (hhangs : Hangs TRbNodeInfo.color m (some data) (m data).parent k (some x)) (hx : x ∉ k.elems)
    (hparent : (m x).parent = k.ptr (some data)) :
    relinkParent data d m x y = some (relinked data y m k) := by
  cases k with
  | nil =>
    have hroot : (m data).parent = some x := hhangs
    rw [relinkParent, if_pos hroot, relinked]
  | cons f k =>
    obtain ⟨v, hv, hroot⟩ := hhangs.exists_root
    have hne : (m data).parent ≠ some x := by
      rw [hroot]
      exact fun heq => hx (Option.some.inj heq ▸ hv)
    obtain ⟨-, -, hchild, hother, -⟩ := hhangs
    have hsib : f.sibling.ptr ≠ some x := ptr_ne fun hmem => hx (by simp [hmem])
    rw [relinkParent, if_neg hne, hparent]
    show (if (m f.val).child d = some x then _ else _) = _
    rcases Side.eq_or_eq_other d f.side with rfl | hside
    · rw [if_pos hchild, relinked]
    · rw [hside, Side.other_other] at hother
      rw [hother, if_neg hsib, relinked, hside]

theorem hangs_relinked (y : Option T) {p : Option T}
    (hhangs : Hangs TRbNodeInfo.color m (some data) (m data).parent k p) (hnodup : k.elems.Nodup)
    (hdata : data ∉ k.elems) :
    Hangs TRbNodeInfo.color (relinked data y m k) (some data) (relinked data y m k data).parent k
      y := by
  cases k with
  | nil =>
    show (m.modify data (setParent y) data).parent = y
    rw [modify_self]
    rfl
  | cons f k =>
    rw [relinked, modify_of_ne fun heq => hdata (by simp [heq])]
    exact hangs_rechild hhangs hnodup

/-- Only the parent is written to. -/
theorem relinked_of_ne (y : Option T) {v : T} (hv : v ∉ k.elems) (hdata : v ≠ data) :
    relinked data y m k v = m v := by
  cases k with
  | nil => exact modify_of_ne hdata
  | cons f k => exact modify_of_ne fun heq => hv (by simp [heq])

theorem relinked_data (y : Option T) (d : Side) (hdata : data ∉ k.elems) :
    (relinked data y m k data).child d = (m data).child d := by
  cases k with
  | nil => rw [relinked, modify_self, child_setParent]
  | cons f k => rw [relinked, modify_of_ne fun heq => hdata (by simp [heq])]

theorem info_relinked (y : Option T) (v : T) : (relinked data y m k v).info = (m v).info := by
  cases k with
  | nil => exact info_modify_setParent
  | cons f k => exact info_modify_setChild f.side

/-- A subtree is hung in a place. -/
theorem at_relinked {s : Tree T TRbTreeColor} {p q : Option T}
    (hhangs : Hangs TRbNodeInfo.color m (some data) (m data).parent k p)
    (hfits : Fits TRbNodeInfo.color m q s) (hnodup : (k.elems ++ s.toList).Nodup)
    (hpath : data ∉ k.elems) (hs : data ∉ s.toList) :
    At TRbNodeInfo.color (relinked data s.ptr (m.modify? s.ptr (setParent (k.ptr (some data)))) k)
      (some data) (relinked data s.ptr (m.modify? s.ptr (setParent (k.ptr (some data)))) k
        data).parent
      k s := by
  cases k with
  | nil =>
    refine ⟨by rw [relinked, modify_self]; rfl, ?_, hnodup⟩
    rw [relinked, fits_modify hs]
    exact fits_reparent hfits hnodup
  | cons f k =>
    have hdata : data ≠ f.val := fun heq => hpath (by simp [heq])
    rw [relinked, modify_of_ne hdata, modify?_of_ne (ptr_ne hs)]
    exact at_graft hhangs hfits hnodup

end Relink

/-! ### Rotations -/

section Rotate

variable {data x y : T} {m m' : TRbMemory T} {k : Path T TRbTreeColor} {d : Side}
  {a b c : Tree T TRbTreeColor}
  {cx cy : TRbTreeColor} {q : Option T}

/-- What `rotate` writes before it comes to the parent of `x`. -/
def rotateBefore (d : Side) (m : TRbMemory T) (x y : T) : TRbMemory T :=
  let m := m.modify x (setChild d.other ((m y).child d))
  let m := m.modify? ((m y).child d) (setParent (some x))
  m.modify y (setParent (m x).parent)

/-- What `rotate` writes behind. -/
def rotateAfter (d : Side) (m : TRbMemory T) (x y : T) : TRbMemory T :=
  let m := m.modify y (setChild d (some x))
  let m := m.modify x (setParent (some y))
  let m := m.modify y (setChildren (m x).info.children)
  m.modify x (setChildren (childrenOf m (m x).left + childrenOf m (m x).right + 1))

theorem rotate_eq (hfar : (m x).child d.other = some y) :
    TRbGlobal.rotate data d m x =
      (relinkParent data d (rotateBefore d m x y) x (some y)).map (rotateAfter d · x y) := by
  rw [TRbGlobal.rotate, hfar]
  cases h : relinkParent data d (rotateBefore d m x y) x (some y) with
  | none | some m' => exact congrArg (Option.bind · _) h

section Before

variable (hxy : x ≠ y) (hnear : (m y).child d = q)
include hxy hnear

theorem rotateBefore_eq : rotateBefore d m x y =
    ((m.modify x (setChild d.other q)).modify? q (setParent (some x))).modify y
      (setParent (((m.modify x (setChild d.other q)).modify? q (setParent (some x)))
        x).parent) := by
  simp only [rotateBefore, modify_of_ne hxy.symm, hnear]

variable (hxq : q ≠ some x) (hyq : q ≠ some y)

theorem rotateBefore_lower (hxq : q ≠ some x) :
    rotateBefore d m x y x = setChild d.other q (m x) := by
  rw [rotateBefore_eq hxy hnear, modify_of_ne hxy, modify?_of_ne hxq, modify_self]

theorem rotateBefore_upper (hxq : q ≠ some x) (hyq : q ≠ some y) :
    rotateBefore d m x y y = setParent (m x).parent (m y) := by
  rw [rotateBefore_eq hxy hnear, modify_self, modify?_of_ne hxq, modify?_of_ne hyq,
    modify_self, modify_of_ne hxy.symm, parent_setChild]

theorem rotateBefore_of_ne {v : T} (hvx : v ≠ x) (hvy : v ≠ y) :
    rotateBefore d m x y v = m.modify? q (setParent (some x)) v := by
  rw [rotateBefore_eq hxy hnear, modify_of_ne hvy]
  by_cases hqv : q = some v
  · rw [hqv]
    show Memory.modify _ v _ v = Memory.modify _ v _ v
    rw [modify_self, modify_self, modify_of_ne hvx]
  · rw [modify?_of_ne hqv, modify?_of_ne hqv, modify_of_ne hvx]

end Before

theorem info_rotateBefore (v : T) : (rotateBefore d m x y v).info = (m v).info := by
  simp only [rotateBefore, info_modify_setParent, info_modify?_setParent, info_modify_setChild]

theorem hangs_rotateBefore {top root p : Option T} (hx : x ∉ k.elems) (hy : y ∉ k.elems)
    (hxy : x ≠ y) (hb : ∀ v ∈ (m y).child d, v ∉ k.elems) :
    Hangs TRbNodeInfo.color (rotateBefore d m x y) top root k p ↔
      Hangs TRbNodeInfo.color m top root k p := by
  rw [rotateBefore_eq hxy rfl, hangs_modify hy, hangs_modify? hb, hangs_modify hx]

theorem rotateAfter_upper (hxy : x ≠ y) :
    rotateAfter d m x y y = setChildren (m x).info.children (setChild d (some x) (m y)) := by
  simp only [rotateAfter, modify_of_ne hxy.symm, modify_self, modify_of_ne hxy,
    info_setParent]

theorem rotateAfter_of_ne {v : T} (hvx : v ≠ x) (hvy : v ≠ y) : rotateAfter d m x y v = m v := by
  simp only [rotateAfter, modify_of_ne hvx, modify_of_ne hvy]

theorem rotateAfter_lower (hxy : x ≠ y) (hleft : (m x).left ≠ some y)
    (hright : (m x).right ≠ some y) : rotateAfter d m x y x =
      setChildren (childrenOf m (m x).left + childrenOf m (m x).right + 1)
        (setParent (some y) (m x)) := by
  simp only [rotateAfter, modify_self]
  generalize hm₇ : Memory.modify _ y (setChildren _) = m₇
  have hx₇ : m₇ x = setParent (some y) (m x) := by
    rw [← hm₇, modify_of_ne hxy, modify_self, modify_of_ne hxy]
  have hinfo : ∀ p, p ≠ some y → childrenOf m₇ p = childrenOf m p := by
    intro p hp
    refine childrenOf_congr fun v hv => ?_
    have hvy : v ≠ y := fun heq => hp (heq ▸ hv)
    rw [← hm₇, modify_of_ne hvy, info_modify_setParent,
      modify_of_ne hvy]
  rw [hx₇, hinfo _ (by exact hleft), hinfo _ (by exact hright)]
  rfl

theorem hangs_rotateAfter {top root p : Option T} (hx : x ∉ k.elems) (hy : y ∉ k.elems) :
    Hangs TRbNodeInfo.color (rotateAfter d m x y) top root k p ↔
      Hangs TRbNodeInfo.color m top root k p := by
  rw [rotateAfter, hangs_modify hx, hangs_modify hy, hangs_modify hx, hangs_modify hy]

/-- What a rotation of `x` and `y` has changed; `a` and `b` hang below `x` afterwards. -/
structure Rotated (data : T) (d : Side) (m : TRbMemory T) (k : Path T TRbTreeColor) (x y : T)
    (a b : Tree T TRbTreeColor) (m' : TRbMemory T) : Prop where
  hangs : Hangs TRbNodeInfo.color m' (some data) (m' data).parent k (some y)
  lower : m' x = setChildren (childrenOf m a.ptr + childrenOf m b.ptr + 1)
    (setParent (some y) (setChild d.other b.ptr (m x)))
  upper : m' y = setChildren (m x).info.children
    (setChild d (some x) (setParent (k.ptr (some data)) (m y)))
  frame : ∀ v, v ≠ x → v ≠ y → v ≠ data → v ∉ k.elems →
    m' v = m.modify? b.ptr (setParent (some x)) v
  info : ∀ v, v ≠ x → v ≠ y → (m' v).info = (m v).info
  header : ∀ d, (m' data).child d = (m data).child d

theorem rotate_rotated
    (h : At TRbNodeInfo.color m (some data) (m data).parent k (.sided d cx a x (.sided d cy b y c)))
    (hdata : data ∉ k.elems) (hdx : data ≠ x) (hdy : data ≠ y) (hdb : data ∉ b.toList) :
    ∃ m', TRbGlobal.rotate data d m x = some m' ∧ Rotated data d m k x y a b m' := by
  obtain ⟨-, hparent, hnear, hfar, -, hfits⟩ := fits_sided.1 h.fits
  obtain ⟨-, -, hnear', -⟩ := fits_sided.1 hfits
  obtain ⟨hpath, htree, hdisj⟩ := h.disjoint
  simp only [nodup_sided, mem_toList_sided, not_or, List.disjoint_left] at htree hdisj
  obtain ⟨-, ⟨hxy, hxb, -⟩, -, ⟨hyb, -⟩, hdisj'⟩ := htree
  have hya : y ∉ a.toList := fun hmem => (hdisj' hmem).1 rfl
  have hxp : x ∉ k.elems := fun hmem => (hdisj hmem).1 rfl
  have hyp : y ∉ k.elems := fun hmem => (hdisj hmem).2.2.1 rfl
  have hbp : ∀ v ∈ b.ptr, v ∉ k.elems := fun v hv hmem => (hdisj hmem).2.2.2.1 (ptr_mem hv)
  have hhangs := h.hangs
  rw [ptr_sided] at hhangs hfar
  have hlower := rotateBefore_lower hxy hnear' (ptr_ne hxb)
  have hupper := rotateBefore_upper hxy hnear' (ptr_ne hxb) (ptr_ne hyb)
  have hframe := fun v => @rotateBefore_of_ne _ _ x y m d _ hxy hnear' v
  have hinfo := info_rotateBefore (d := d) (m := m) (x := x) (y := y)
  have hheader := hframe data hdx hdy
  rw [modify?_of_ne (ptr_ne hdb)] at hheader
  rw [← hangs_rotateBefore hxp hyp hxy (hnear' ▸ hbp), ← hheader] at hhangs
  rw [rotate_eq hfar]
  generalize rotateBefore d m x y = m₁ at *
  have hparent₁ : (m₁ x).parent = k.ptr (some data) := by
    rw [hlower, parent_setChild, hparent]
  rw [relinkParent_eq d (some y) hhangs hxp hparent₁, Option.map_some]
  have hother := fun v => @relinked_of_ne _ _ data m₁ k (some y) v
  have hx := hother x hxp hdx.symm
  have hy := hother y hyp hdy.symm
  have hinfo₂ := @info_relinked _ _ data m₁ k (some y)
  have hdata₂ := fun d => relinked_data (m := m₁) (some y) d hdata
  have hhangs₂ := hangs_relinked (some y) hhangs hpath hdata
  generalize relinked data (some y) m₁ k = m₂ at *
  refine ⟨_, rfl, ?_, ?_, ?_, ?_, ?_, ?_⟩
  · rw [rotateAfter_of_ne hdx hdy, hangs_rotateAfter hxp hyp]
    exact hhangs₂
  · have hcount : ∀ p, childrenOf m₂ p = childrenOf m p := fun p =>
      childrenOf_congr fun v _ => congrArg TRbNodeInfo.children ((hinfo₂ v).trans (hinfo v))
    have hnear₂ : (m₂ x).child d = a.ptr := by rw [hx, hlower, child_setChild_other, hnear]
    have hfar₂ : (m₂ x).child d.other = b.ptr := by rw [hx, hlower, child_setChild]
    obtain ⟨hleft, hright⟩ :=
      left_ne_and_right_ne (p := some y) (hnear₂ ▸ ptr_ne hya) (hfar₂ ▸ ptr_ne hyb)
    rw [rotateAfter_lower hxy hleft hright, childrenOf_left_add_right d, hnear₂, hfar₂, hcount,
      hcount, hx, hlower]
  · rw [rotateAfter_upper hxy, hx, hy, hlower, hupper, hparent, info_setChild]
  · intro v hvx hvy hvdata hv
    rw [rotateAfter_of_ne hvx hvy, hother v hv hvdata, hframe v hvx hvy]
  · intro v hvx hvy
    rw [rotateAfter_of_ne hvx hvy, hinfo₂, hinfo]
  · intro d'
    rw [rotateAfter_of_ne hdx hdy, hdata₂, hheader]

/-- The tree after a rotation. -/
theorem Rotated.focus (hrot : Rotated data d m k x y a b m')
    (h : At TRbNodeInfo.color m (some data) (m data).parent k (.sided d cx a x (.sided d cy b y c)))
    (hdata : data ∉ (Tree.sided d cx a x (.sided d cy b y c)).toList) :
    At TRbNodeInfo.color m' (some data) (m' data).parent k
      (.sided d cy (.sided d cx a x b) y c) := by
  obtain ⟨hinfo, hparent, hnear, hfar, ha, hfits⟩ := fits_sided.1 h.fits
  obtain ⟨hinfo', -, hnear', hfar', hb, hc⟩ := fits_sided.1 hfits
  obtain ⟨-, htree, hdisj⟩ := h.disjoint
  simp only [nodup_sided, mem_toList_sided, not_or, List.disjoint_left] at htree hdisj hdata
  obtain ⟨hxa, ⟨hxy, hxb, hxc⟩, -, ⟨hyb, hyc, hbnodup, -, hbc⟩, hdisj'⟩ := htree
  obtain ⟨-, hda, -, hdb, hdc⟩ := hdata
  have hframe : ∀ {v}, v ∈ a.toList ∨ v ∈ b.toList ∨ v ∈ c.toList →
      m' v = m.modify? b.ptr (setParent (some x)) v := by
    intro v hv
    apply hrot.frame v <;> grind
  refine ⟨by rw [ptr_sided]; exact hrot.hangs,
    fits_sided.2 ⟨?_, ?_, ?_, ?_, fits_sided.2 ⟨?_, ?_, ?_, ?_, ?_, ?_⟩, ?_⟩, ?_⟩
  · simp [hrot.upper, hinfo']
  · simp [hrot.upper]
  · simp [hrot.upper]
  · simp [hrot.upper, hfar']
  · simp [hrot.lower, hinfo]
  · simp [hrot.lower]
  · simp [hrot.lower, hnear]
  · simp [hrot.lower]
  · refine (fits_congr fun v hv => .of_eq ?_).2 ha
    rw [hframe (.inl hv), modify?_of_ne fun heq => (hdisj' hv).2.1 (ptr_mem heq)]
  · exact (fits_congr fun v hv => .of_eq (hframe (.inr (.inl hv)))).2 (fits_reparent hb hbnodup)
  · refine (fits_congr fun v hv => .of_eq ?_).2 hc
    rw [hframe (.inr (.inr hv)), modify?_of_ne fun heq => hbc (ptr_mem heq) hv]
  · rw [← rotate_sided, toList_rotate]
    exact h.nodup

end Rotate

/-! ### `Rebalance` -/

section Rebalance

variable {data : T} {m m' : TRbMemory T} {t t' : TRbTreeNode T} {k : TRbTreePath T}

variable {d : Side} {c cx cy : TRbTreeColor} {a b s : TRbTreeNode T} {x y : T}

theorem rotate_moved (h : Placed data m (k.plug (sided d cx a x (sided d cy b y s)))) :
    ∃ m', TRbGlobal.rotate data d m x = some m' ∧
      Moved data m (k.plug (sided d cx a x (sided d cy b y s))) m'
        (k.plug (sided d cy (sided d cx a x b) y s)) := by
  have hat := h.focus
  have hdata := h.notMem_tree
  obtain ⟨-, htree, hdisj⟩ := hat.disjoint
  simp only [mem_toList_sided, nodup_sided, not_or, List.disjoint_left] at hdata htree hdisj
  obtain ⟨hxa, ⟨hxy, hxb, hxs⟩, -, ⟨hyb, hys, hbnodup, -, hbs⟩, hdisj'⟩ := htree
  obtain ⟨hdx, hda, hdy, hdb, hds⟩ := hdata
  obtain ⟨m', hrotate, hrot⟩ := rotate_rotated hat h.notMem_path hdx hdy hdb
  have hlist : (k.plug (sided d cy (sided d cx a x b) y s)).toList =
      (k.plug (sided d cx a x (sided d cy b y s))).toList := by
    apply toList_plug_congr
    rw [← rotate_sided, toList_rotate]
  have hplaced : Placed data m' (k.plug (sided d cy (sided d cx a x b) y s)) := by
    refine .of_focus ?_ (hlist ▸ h.notMem)
    exact hrot.focus hat (by simpa [hdx, hda, hdy, hdb] using hds)
  have hinfo : ∀ v, v ≠ x → v ≠ y → (m' v).info.children = (m v).info.children := fun v hvx hvy =>
    congrArg TRbNodeInfo.children (hrot.info v hvx hvy)
  have hxp : x ∉ k.elems := fun hmem => (hdisj hmem).1 rfl
  have hyp : y ∉ k.elems := fun hmem => (hdisj hmem).2.2.1 rfl
  refine ⟨m', hrotate, hplaced, hlist, hrot.header, ?_, ?_, ?_⟩
  · intro v hv hvdata
    simp only [mem_toList_plug, mem_toList_sided, not_or] at hv
    obtain ⟨hvp, hvx, -, hvy, hvb, -⟩ := hv
    rw [hrot.frame v hvx hvy hvdata hvp, modify?_of_ne (ptr_ne hvb)]
  · simp only [counted_plug, counted_sided, length_toList_sided]
    rintro ⟨hpath, hx, ha, hy, hb, hs⟩
    have hkeep : ∀ v, v ∈ a.toList ∨ v ∈ b.toList ∨ v ∈ s.toList →
        (m' v).info.children = (m v).info.children := by
      intro v hv
      apply hinfo v <;> grind
    refine ⟨?_, ?_, ⟨?_, ?_, ?_⟩, ?_⟩
    · rw [countedAround_congr fun v hv => hinfo v (ne_of_mem_of_not_mem hv hxp)
        (ne_of_mem_of_not_mem hv hyp)]
      convert hpath using 1
      omega
    · rw [hrot.upper, info_setChildren, hx]
      show _ = _
      omega
    · rw [hrot.lower, info_setChildren, ha.childrenOf_ptr, hb.childrenOf_ptr]
    · exact (counted_congr fun v hv => hkeep v (.inl hv)).2 ha
    · exact (counted_congr fun v hv => hkeep v (.inr (.inl hv))).2 hb
    · exact (counted_congr fun v hv => hkeep v (.inr (.inr hv))).2 hs
  · cases k with
    | nil =>
      rw [plug, plug, ptr_sided, ptr_sided, childrenOf, childrenOf, hrot.upper,
        info_setChildren]
    | cons f k =>
      rw [TRbTreePath.ptr_plug_cons f k _ (sided d cx a x (sided d cy b y s))]
      refine childrenOf_congr fun v hv => ?_
      have hmem := TRbTreePath.mem_of_ptr_plug_cons hv
      exact hinfo v (ne_of_mem_of_not_mem hmem hxp) (ne_of_mem_of_not_mem hmem hyp)

/-- `x->Color_ = c`, if there is an `x` -/
theorem recolor_moved (c : TRbTreeColor) (h : Placed data m (k.plug t)) :
    Moved data m (k.plug t) (m.modify? t.ptr (setColor c)) (k.plug (t.setInfo c)) := by
  cases t with
  | nil => exact .refl h
  | node c₀ l v r =>
    have hdata : data ≠ v := fun heq => h.notMem_tree (by simp [toList, heq])
    have hlist : (k.plug (node c l v r)).toList = (k.plug (node c₀ l v r)).toList :=
      toList_plug_congr _ rfl
    have hchildren := fun w => children_modify_setColor m v w c
    refine ⟨.of_focus ?_ (hlist ▸ h.notMem), hlist, ?_, ?_, ?_, ?_⟩
    · show At _ (m.modify v (setColor c)) _ (m.modify v (setColor c) data).parent _ _
      rw [modify_of_ne hdata]
      exact at_setInfo (g := fun i => { i with color := c }) h.focus rfl
    · exact fun d => congrArg (child · d) (modify_of_ne hdata)
    · exact fun w hw _ => modify_of_ne fun heq =>
        hw (mem_toList_plug.2 (.inr (by simp [toList, heq])))
    · rw [counted_plug, counted_plug]
      exact fun hcounted => ⟨(countedAround_congr fun w _ => hchildren w).2 hcounted.1,
        (counted_congr (t := node c₀ l v r) fun w _ => hchildren w).2 hcounted.2⟩
    · have hptr : (k.plug (node c l v r)).ptr = (k.plug (node c₀ l v r)).ptr := by
        cases k with
        | nil => rfl
        | cons f k => exact TRbTreePath.ptr_plug_cons f k _ _
      show childrenOf (m.modify v (setColor c)) (k.plug (node c l v r)).ptr = _
      rw [hptr]
      exact childrenOf_congr fun w _ => hchildren w

theorem recolor_sided {v : T} (c' : TRbTreeColor) (h : Placed data m (k.plug (sided d c a v b))) :
    Moved data m (k.plug (sided d c a v b)) (m.modify v (setColor c'))
      (k.plug (sided d c' a v b)) := by
  have hmoved := recolor_moved c' h
  rwa [ptr_sided, setInfo_sided] at hmoved

theorem rotate_other_moved (h : Placed data m (k.plug (sided d cy (sided d cx a x b) y s))) :
    ∃ m', TRbGlobal.rotate data d.other m y = some m' ∧
      Moved data m (k.plug (sided d cy (sided d cx a x b) y s)) m'
        (k.plug (sided d cx a x (sided d cy b y s))) := by
  cases d with
  | left => exact rotate_moved (d := .right) h
  | right => exact rotate_moved (d := .left) h

theorem side_eq {d : Side} {cell : Cell T TRbNodeInfo} {p : Option T} (hnear : cell.child d = p)
    (hfar : cell.child d.other ≠ p) : (if cell.left = p then Side.left else Side.right) = d := by
  cases d with
  | left => exact if_pos hnear
  | right => exact if_neg hfar

theorem rebalanceOuter_moved {cg cp : TRbTreeColor} {g p : T}
    (h : Placed data m (k.plug (sided d cg (sided d cp a p b) g s))) (ha : a.ptr = some x) :
    ∃ m', rebalanceOuter data d m x = some m' ∧
      Moved data m (k.plug (sided d cg (sided d cp a p b) g s)) m'
        (k.plug (sided d black a p (sided d red b g s))) := by
  have hparent : (m x).parent = some p := by
    obtain ⟨ca, la, ra, rfl⟩ := exists_sided .left ha
    exact (Placed.links (k := ⟨d, cp, p, b⟩ :: ⟨d, cg, g, s⟩ :: k) h).2.1
  have h₁ := recolor_sided (k := ⟨d, cg, g, s⟩ :: k) black h
  have hgrand := (Placed.links (k := ⟨d, cg, g, s⟩ :: k) h₁.placed).2.1
  have h₂ := recolor_sided (k := k) red h₁.placed
  obtain ⟨m', hrotate, h₃⟩ := rotate_other_moved (k := k) h₂.placed
  refine ⟨m', ?_, h₁.trans (h₂.trans h₃)⟩
  rw [rebalanceOuter, hparent]
  exact (congrArg (Option.bind · _) hgrand).trans hrotate

/-- The three colors that change where the sibling of the parent is red. -/
theorem recolor_three_moved {d' : Side} {cg cp : TRbTreeColor} {g p : T}
    (h : Placed data m (k.plug (sided d cg (sided d' cp a p b) g s))) :
    Moved data m (k.plug (sided d cg (sided d' cp a p b) g s))
      (((m.modify p (setColor black)).modify? s.ptr (setColor black)).modify g
        (setColor red))
      (k.plug (sided d red (sided d' black a p b) g (s.setInfo black))) := by
  have h₁ := recolor_sided (k := ⟨d, cg, g, s⟩ :: k) black h
  have h₂ := recolor_moved (k := ⟨d.other, cg, g, sided d' black a p b⟩ :: k) black
    (TRbTreePath.plug_other d .. ▸ h₁.placed)
  rw [TRbTreePath.plug_other, TRbTreePath.plug_other] at h₂
  exact h₁.trans (h₂.trans (recolor_sided red h₂.placed))

theorem rebalanceLoop_black {f : TRbTreeFrame T} {v : T} {fuel : Nat}
    (h : Placed data m (plug (f :: k) t)) (hv : t.ptr = some v) (hf : f.info = black) :
    rebalanceLoop data (fuel + 1) m v = some m := by
  obtain ⟨c, l, r, rfl⟩ := exists_sided .left hv
  have hparent := (Placed.links h).2.1
  have hcolor := (Placed.links (k := k) h).1
  rw [rebalanceLoop, if_neg (h.parent_data_ne (by simp)), hparent]
  show (if (m f.val).info.color ≠ red then _ else _) = _
  rw [hcolor, hf]
  rfl

/-- The first rotation of a turn of `Rebalance`, if there is one. -/
theorem rebalanceInner_moved {d' : Side} {cg cp : TRbTreeColor} {g p v : T} {x : TRbTreeNode T}
    (h : Placed data m (k.plug (sided d cg (sided d' cp x p b) g s))) (hx : x.ptr = some v) :
    ∃ m' c' a' p' b',
      (if (m p).child d.other = some v then TRbGlobal.rotate data d m p else some m) = some m' ∧
      Tree.ptr a' = some (if (m p).child d.other = some v then p else v) ∧
      (if d' = d then sided d' cp x p b else (sided d' cp x p b).rotate d) = sided d c' a' p' b' ∧
      Moved data m (k.plug (sided d cg (sided d' cp x p b) g s)) m'
        (k.plug (sided d cg (sided d c' a' p' b') g s)) := by
  obtain ⟨-, -, hnear, hfar⟩ := Placed.links (k := ⟨d, cg, g, s⟩ :: k) h
  rcases Side.eq_or_eq_other d d' with rfl | rfl
  · have hne : (m p).child d'.other ≠ some v := by
      rw [hfar]
      exact Placed.ptr_sibling_ne (k := ⟨d', cg, g, s⟩ :: k) (f := ⟨d', cp, p, b⟩) h hx
    rw [if_neg hne, if_neg hne, if_pos rfl]
    exact ⟨m, cp, x, p, b, rfl, hx, rfl, .refl h⟩
  · have hne : d.other ≠ d := by cases d <;> decide
    rw [hx] at hnear
    obtain ⟨cx, l, r, rfl⟩ := exists_sided d hx
    rw [if_pos hnear, if_pos hnear, if_neg hne, sided_other, rotate_sided]
    rw [sided_other] at h
    obtain ⟨m', hrotate, hmoved⟩ := rotate_moved (k := ⟨d, cg, g, s⟩ :: k) h
    exact ⟨m', cx, _, v, r, hrotate, ptr_sided, rfl, hmoved⟩

/-- One turn of the loop of `Rebalance` below a red parent. -/
theorem rebalanceLoop_red {d d' : Side} {cg : TRbTreeColor} {g p v : T} {x : TRbTreeNode T}
    {fuel : Nat} (h : Placed data m (k.plug (sided d cg (sided d' red x p b) g s)))
    (hx : x.ptr = some v) :
    rebalanceLoop data (fuel + 1) m v =
      if s.color = red then
        rebalanceLoop data fuel (((m.modify p (setColor black)).modify? s.ptr
          (setColor black)).modify g (setColor red)) g
      else
        let turned := (m p).child d.other = some v
        (if turned then TRbGlobal.rotate data d m p else some m).bind fun m' =>
          (rebalanceOuter data d m' (if turned then p else v)).bind fun m' =>
            rebalanceLoop data fuel m' (if turned then p else v) := by
  obtain ⟨c, l, r, rfl⟩ := exists_sided .left hx
  have hparent := (Placed.links (k := ⟨d', red, p, b⟩ :: ⟨d, cg, g, s⟩ :: k) h).2.1
  obtain ⟨hcolor, hgrand, -⟩ := Placed.links (k := ⟨d, cg, g, s⟩ :: k) h
  obtain ⟨-, -, hnear, hfar⟩ := h.links
  have hne : s.ptr ≠ some p := Placed.ptr_sibling_ne (f := ⟨d, cg, g, s⟩) h ptr_sided
  have hred : isRed m s.ptr = decide (s.color = red) :=
    Placed.isRed_ptr (k := ⟨d.other, cg, g, sided d' red _ p b⟩ :: k)
      (show Placed data m (k.plug (sided d.other cg s g _)) from (sided_other d).symm ▸ h)
  have hroot : (m data).parent ≠ some v :=
    Placed.parent_data_ne (k := ⟨d, cg, g, s⟩ :: k) (f := ⟨d', red, p, b⟩) h (by simp)
  have hside : (if (m g).left = some p then Side.left else Side.right) = d :=
    side_eq (hnear.trans ptr_sided) (hfar ▸ hne)
  simp only [rebalanceLoop, if_neg hroot, hparent, TRbTreePath.parent, bind_eq_bind, bind_some,
    hcolor, ne_eq, not_true, if_false, hgrand, hside, hfar, hred, decide_eq_true_eq]
  split
  · rfl
  · split <;> rfl

/-- The loop of `Rebalance` comes to the tree of `TRbTreeNode.rebalance`, up to the color of the
root. -/
theorem rebalanceLoop_moved (k : TRbTreePath T) (x : TRbTreeNode T) :
    ∀ (m : TRbMemory T) (v : T) (t : TRbTreeNode T) (fuel : Nat), x.ptr = some v →
      Placed data m (k.plug x) →
      TRbTreeNode.rebalance k x = some t → k.length < fuel →
      ∃ m' t', rebalanceLoop data fuel m v = some m' ∧ Moved data m (k.plug x) m' t' ∧
      t'.setInfo black = t := by
  fun_induction TRbTreeNode.rebalance k x with
  | case1 x =>
    intro m v t fuel hx h ht hfuel
    cases ht
    obtain ⟨fuel, rfl⟩ := Nat.exists_eq_add_one.2 hfuel.pos
    have hroot : (m data).parent = some v := h.parent_data.trans hx
    exact ⟨m, x, by rw [rebalanceLoop, if_pos hroot], .refl h, rfl⟩
  | case2 =>
    intro m v t fuel hx h ht hfuel
    cases ht
  | case3 parent x hp =>
    intro m v t fuel hx h ht hfuel
    cases ht
    obtain ⟨fuel, rfl⟩ := Nat.exists_eq_add_one.2 hfuel.pos
    have hblack : parent.info = black := by cases hc : parent.info <;> simp_all
    exact ⟨m, _, rebalanceLoop_black h hx hblack, .refl h, rfl⟩
  | case4 parent grand k x hp y hy ih =>
    intro m v t fuel hx h ht hfuel
    obtain ⟨fuel, rfl⟩ := Nat.exists_eq_add_one.2 hfuel.pos
    obtain ⟨d', cp, p, b⟩ := parent
    obtain rfl : cp = red := hp
    have h' : Placed data m (plug k
        (sided grand.side grand.info (sided d' red x p b) grand.val y)) := h
    have hmoved := recolor_three_moved h'
    rw [List.length_cons, List.length_cons] at hfuel
    obtain ⟨m', t', hloop, hmoved', ht'⟩ :=
      ih _ grand.val t fuel ptr_sided hmoved.placed ht (by omega)
    rw [rebalanceLoop_red h' hx, if_pos hy]
    exact ⟨m', t', hloop, hmoved.trans hmoved', ht'⟩
  | case5 parent grand k x hp y hy p p' =>
    intro m v t fuel hx h ht hfuel
    cases ht
    rw [List.length_cons, List.length_cons] at hfuel
    obtain ⟨fuel, rfl⟩ : ∃ n, fuel = n + 2 := ⟨fuel - 2, by omega⟩
    obtain ⟨d', cp, w, b⟩ := parent
    obtain rfl : cp = red := hp
    have h' : Placed data m (plug k
        (sided grand.side grand.info (sided d' red x w b) grand.val y)) := h
    obtain ⟨m₁, c₁, a₁, w₁, b₁, hinner, hx₁, hp', hmoved₁⟩ := rebalanceInner_moved h' hx
    obtain ⟨m₂, houter, hmoved₂⟩ := rebalanceOuter_moved hmoved₁.placed hx₁
    refine ⟨m₂, _, ?_, hmoved₁.trans hmoved₂, ?_⟩
    · rw [rebalanceLoop_red h' hx, if_neg hy]
      simp only [hinner, bind_some, houter]
      exact rebalanceLoop_black (f := ⟨_, black, w₁, _⟩) hmoved₂.placed hx₁ rfl
    · rw [show p' = sided grand.side c₁ a₁ w₁ b₁ from hp', setInfo_sided, rotate_other_sided]
  | case6 parent grand k x hp =>
    intro m v t fuel hx h ht hfuel
    cases ht
    obtain ⟨fuel, rfl⟩ := Nat.exists_eq_add_one.2 hfuel.pos
    have hblack : parent.info = black := by cases hc : parent.info <;> simp_all
    exact ⟨m, _, rebalanceLoop_black h hx hblack, .refl h, rfl⟩

theorem rebalance_moved {x t : TRbTreeNode T} {v : T} {fuel : Nat} (hx : x.ptr = some v)
    (h : Placed data m (k.plug x)) (ht : TRbTreeNode.rebalance k (x.setInfo red) = some t)
    (hfuel : k.length < fuel) :
    ∃ m', TRbGlobal.rebalance data fuel m v = some m' ∧ Moved data m (k.plug x) m' t := by
  obtain ⟨c, l, r, rfl⟩ := exists_sided .left hx
  have h₁ := recolor_sided red h
  rw [setInfo_sided] at ht
  obtain ⟨m₁, t₁, hloop, h₂, rfl⟩ := rebalanceLoop_moved k _ _ v t fuel ptr_sided h₁.placed ht hfuel
  have hmem : v ∈ t₁.toList := by
    rw [h₂.toList, mem_toList_plug]
    exact .inr (by simp)
  obtain ⟨w, hw⟩ := exists_ptr hmem
  have h₃ := recolor_moved (k := []) black h₂.placed
  refine ⟨_, ?_, h₁.trans (h₂.trans h₃)⟩
  rw [TRbGlobal.rebalance]
  simp only [hloop, bind_eq_bind, bind_some]
  rw [h₂.placed.parent_data, hw]
  rfl

/-! ### The loop of `RebalanceForErase` -/

section Borrow

variable {near far : TRbTreeNode T} {cw : TRbTreeColor} {v w : T} {x : TRbTreeNode T}

theorem borrowFar_moved (h : Placed data m (k.plug (sided d c x v (sided d cw near w far)))) :
    ∃ m', borrowFar data d m v = some m' ∧
      Moved data m (k.plug (sided d c x v (sided d cw near w far))) m'
        (k.plug (sided d c (sided d black x v near) w (far.setInfo black))) := by
  obtain ⟨hcolor, -, -, hfar⟩ := h.links
  have h₁ := recolor_sided (k := ⟨d.other, c, v, x⟩ :: k) c (TRbTreePath.plug_other d .. ▸ h)
  rw [TRbTreePath.plug_other, TRbTreePath.plug_other] at h₁
  have h₂ := recolor_sided black h₁.placed
  have h₃ := h₂.placed
  rw [← TRbTreePath.plug_other] at h₃
  obtain ⟨-, -, -, hfar'⟩ := h₃.links
  rw [← TRbTreePath.plug_other] at h₃
  have h₄ := recolor_moved black h₃
  rw [TRbTreePath.plug_other, TRbTreePath.plug_other, TRbTreePath.plug_other,
    TRbTreePath.plug_other] at h₄
  obtain ⟨m', hrotate, h₅⟩ := rotate_moved h₄.placed
  refine ⟨m', ?_, h₁.trans (h₂.trans (h₄.trans h₅))⟩
  rw [borrowFar, hfar, ptr_sided]
  simp only [bind_eq_bind, bind_some, hcolor, hfar']
  exact hrotate

/-- The rotation that brings a red node to the far side. -/
theorem borrowNear_moved (h : Placed data m (k.plug (sided d c x v (sided d cw near w far))))
    {u : T} (hnear : near.ptr = some u) :
    ∃ m' cw' near' w' far', TRbGlobal.rotate data d.other ((m.modify? near.ptr
        (setColor black)).modify w (setColor red)) w = some m' ∧
      (sided d red (near.setInfo black) w far).rotate d.other = sided d cw' near' w' far' ∧
      Moved data m (k.plug (sided d c x v (sided d cw near w far))) m'
        (k.plug (sided d c x v (sided d cw' near' w' far'))) := by
  obtain ⟨cu, a, b, rfl⟩ := exists_sided d hnear
  rw [← TRbTreePath.plug_other] at h
  have h₁ := recolor_moved (k := ⟨d, cw, w, far⟩ :: ⟨d.other, c, v, x⟩ :: k) black h
  rw [setInfo_sided] at h₁
  have h₂ := recolor_sided (k := ⟨d.other, c, v, x⟩ :: k) red h₁.placed
  obtain ⟨m', hrotate, h₃⟩ := rotate_other_moved h₂.placed
  refine ⟨m', black, a, u, sided d red b w far, hrotate, ?_, ?_⟩
  · rw [setInfo_sided, rotate_other_sided]
  · have h₄ := h₁.trans (h₂.trans h₃)
    rwa [plug, TRbTreePath.plug_other, TRbTreePath.plug_other] at h₄

theorem borrow_moved {more : Bool}
    (h : Placed data m (k.plug (sided d c x v (sided d cw near w far))))
    (hb : TRbTreeNode.borrow ⟨d, c, v, sided d cw near w far⟩ x = some (more, t)) :
    ∃ m', TRbGlobal.borrow data d m v = some (more, m') ∧
      Moved data m (k.plug (sided d c x v (sided d cw near w far))) m' (k.plug t) := by
  have hsib : (m v).child d.other = some w := h.links.2.2.2.trans ptr_sided
  have h' := h
  rw [← TRbTreePath.plug_other] at h'
  obtain ⟨-, -, hnear, hfar⟩ := h'.links
  have hrednear : isRed m near.ptr = decide (near.color = red) := 
    Placed.isRed_ptr (k := ⟨d, cw, w, far⟩ :: ⟨d.other, c, v, x⟩ :: k) h'
  have hredfar : isRed m far.ptr = decide (far.color = red) := by
    rw [← TRbTreePath.plug_other] at h'
    exact h'.isRed_ptr
  simp only [TRbTreeNode.borrow, split_sided] at hb
  simp only [TRbGlobal.borrow, hsib, bind_eq_bind, bind_some, hnear, hfar, hrednear, hredfar,
    decide_eq_true_eq, color_ne_red]
  by_cases hblack : near.color = black ∧ far.color = black
  · rw [if_pos hblack] at hb
    cases hb
    have hmoved := recolor_sided red h'
    rw [TRbTreePath.plug_other, TRbTreePath.plug_other] at hmoved
    exact ⟨_, if_pos hblack, hmoved⟩
  · rw [if_neg hblack] at hb ⊢
    by_cases hfarblack : far.color = black
    · have hnearred : near.color = red := by
        cases hc : near.color with
        | red => rfl
        | black => exact absurd ⟨hc, hfarblack⟩ hblack
      obtain ⟨u, hu⟩ : ∃ u, near.ptr = some u := by
        cases near with
        | nil => cases hnearred
        | node c l u r => exact ⟨u, rfl⟩
      obtain ⟨m₁, cw', near', w', far', hrotate, hs, h₁⟩ := borrowNear_moved h hu
      obtain ⟨m₂, hborrow, h₂⟩ := borrowFar_moved h₁.placed
      rw [if_pos hfarblack, hs, split_sided] at hb
      cases hb
      rw [if_pos hfarblack, hrotate]
      refine ⟨m₂, ?_, ?_⟩
      · simp only [bind_some, hborrow]
      · rw [Frame.plug, rotate_sided]
        exact h₁.trans h₂
    · obtain ⟨m₁, hborrow, h₁⟩ := borrowFar_moved h
      rw [if_neg hfarblack, split_sided] at hb
      cases hb
      rw [if_neg hfarblack, hborrow]
      refine ⟨m₁, rfl, ?_⟩
      rw [Frame.plug, rotate_sided]
      exact h₁

omit [DecidableEq T] in
/-- What `borrow` makes of a place: the same node with another sibling, or `x` further down. -/
theorem borrow_shape {more : Bool}
    (hb : TRbTreeNode.borrow ⟨d, c, v, sided d cw near w far⟩ x = some (more, t)) :
    if more then ∃ s, t = sided d c x v s else ∃ p : TRbTreePath T, t = p.plug x := by
  simp only [TRbTreeNode.borrow, split_sided] at hb
  split at hb
  · cases hb
    exact ⟨_, rfl⟩
  · obtain ⟨⟨c', near', w', far'⟩, -, heq⟩ := Option.map_eq_some_iff.1 hb
    cases heq
    rw [Frame.plug, rotate_sided]
    exact ⟨[⟨d, black, v, near'⟩, ⟨d, c, w', far'.setInfo black⟩], rfl⟩

/-- The color of `x` at the end of the loop, where it has been black all the time. -/
theorem recolor_black_moved {p : TRbTreePath T} (h : Placed data m (p.plug x))
    (hx : ¬x.color = red) :
    Moved data m (p.plug x) (m.modify? x.ptr (setColor black)) (p.plug x) := by
  have hmoved := recolor_moved black h
  have hsame : x.setInfo black = x := by
    cases x with
    | nil => rfl
    | node c l u r =>
      obtain rfl : c = black := color_ne_red.1 hx
      rfl
  rwa [hsame] at hmoved

/-- One turn of the loop of `RebalanceForErase` below a node that has a sibling. -/
theorem eraseLoop_turn (fuel : Nat)
    (h : Placed data m (k.plug (sided d c x v (sided d cw near w far)))) (hx : ¬x.color = red) :
    eraseLoop data (fuel + 1) m x.ptr (some v) =
      (if cw = red then TRbGlobal.rotate data d ((m.modify w (setColor black)).modify v
        (setColor red)) v else some m).bind fun m' =>
        (TRbGlobal.borrow data d m' v).bind fun r =>
          if r.1 then eraseLoop data fuel r.2 (some v) (r.2 v).parent else some (r.2, x.ptr) := by
  obtain ⟨-, -, hnear, hfar⟩ := h.links
  rw [ptr_sided] at hfar
  have hredx : isRed m x.ptr = decide (x.color = red) :=
    Placed.isRed_ptr (k := ⟨d, c, v, sided d cw near w far⟩ :: k) h
  have hredw : isRed m (some w) = decide (cw = red) := by
    have hred : isRed m (sided d cw near w far).ptr =
        decide (color (sided d cw near w far) = red) :=
      Placed.isRed_ptr (k := ⟨d.other, c, v, x⟩ :: k) (TRbTreePath.plug_other d .. ▸ h)
    rwa [ptr_sided, color_sided] at hred
  have hroot : x.ptr ≠ (m data).parent :=
    Placed.ptr_ne_root (f := ⟨d, c, v, sided d cw near w far⟩) h
  have hne : (m v).child d.other ≠ x.ptr := by
    rw [hfar]
    intro heq
    exact Placed.ptr_sibling_ne (f := ⟨d, c, v, sided d cw near w far⟩) h heq.symm ptr_sided
  have hside : (if x.ptr = (m v).left then Side.left else Side.right) = d := by
    rw [← side_eq hnear hne]
    exact if_congr eq_comm rfl rfl
  rw [eraseLoop, if_neg (by rw [hredx]; simpa using ⟨hroot, hx⟩)]
  simp only [bind_eq_bind, bind_some, hside, hfar, hredw, decide_eq_true_eq]
  split <;> rfl

/-- The rotation of a turn with a red sibling. -/
theorem eraseRotate_moved (h : Placed data m (k.plug (sided d c x v (sided d red near w far)))) :
    ∃ m', TRbGlobal.rotate data d ((m.modify w (setColor black)).modify v
        (setColor red)) v = some m' ∧
      Moved data m (k.plug (sided d c x v (sided d red near w far))) m'
        (k.plug (sided d black (sided d red x v near) w far)) := by
  have h₁ := recolor_sided (k := ⟨d.other, c, v, x⟩ :: k) black (TRbTreePath.plug_other d .. ▸ h)
  rw [TRbTreePath.plug_other, TRbTreePath.plug_other] at h₁
  have h₂ := recolor_sided red h₁.placed
  obtain ⟨m', hrotate, h₃⟩ := rotate_moved h₂.placed
  exact ⟨m', hrotate, h₁.trans (h₂.trans h₃)⟩

theorem eraseLoop_red (fuel : Nat) (h : Placed data m (k.plug x)) (hx : x.color = red)
    (p : Option T) : eraseLoop data (fuel + 1) m x.ptr p = some (m, x.ptr) := by
  rw [eraseLoop, if_pos (.inr (by rw [h.isRed_ptr]; exact decide_eq_true hx))]

/-- The loop of `RebalanceForErase` comes to the tree of `TRbTreeNode.rebalanceForErase`, once its
`x` is black. -/
theorem eraseLoop_moved {fuel : Nat} (h : Placed data m (k.plug x))
    (ht : TRbTreeNode.rebalanceForErase k x = some t) (hfuel : k.length < fuel) :
    ∃ m' x', eraseLoop data fuel m x.ptr (some (k.parent data)) = some (m', x') ∧
      Moved data m (k.plug x) (m'.modify? x' (setColor black)) t := by
  induction k generalizing x m fuel with
  | nil =>
    cases ht
    obtain ⟨fuel, rfl⟩ := Nat.exists_eq_add_one.2 hfuel.pos
    exact ⟨m, x.ptr, by rw [eraseLoop, if_pos (.inl h.parent_data.symm)], recolor_moved black h⟩
  | cons parent k ih =>
    obtain ⟨fuel, rfl⟩ := Nat.exists_eq_add_one.2 hfuel.pos
    rw [TRbTreeNode.rebalanceForErase] at ht
    by_cases hx : x.color = red
    · rw [if_pos hx] at ht
      cases ht
      exact ⟨m, x.ptr, eraseLoop_red fuel h hx _, recolor_moved black h⟩
    · rw [if_neg hx] at ht
      obtain ⟨d, c, v, s⟩ := parent
      split at ht
      · cases ht
      · next near w far hs =>
        obtain rfl : s = sided d red near w far := eq_of_split hs
        obtain ⟨⟨more, t'⟩, hb, rfl⟩ := Option.map_eq_some_iff.1 ht
        obtain ⟨m₁, hrotate, h₁⟩ := eraseRotate_moved h
        obtain ⟨u, hu⟩ : ∃ u, near.ptr = some u := by
          cases near with
          | nil => cases hb
          | node c l u r => exact ⟨u, rfl⟩
        obtain ⟨cn, a, b, rfl⟩ := exists_sided d hu
        obtain ⟨m₂, hborrow, h₂⟩ := borrow_moved (k := ⟨d, black, w, far⟩ :: k) h₁.placed hb
        have hshape := borrow_shape hb
        have hturn := eraseLoop_turn fuel h hx
        rw [if_pos rfl, hrotate, bind_some, hborrow, bind_some] at hturn
        cases more with
        | true =>
          obtain ⟨s, rfl⟩ := hshape
          obtain ⟨fuel, rfl⟩ : ∃ n, fuel = n + 1 :=
            ⟨fuel - 1, by rw [List.length_cons] at hfuel; omega⟩
          have hred := eraseLoop_red fuel h₂.placed (color_sided ..) (m₂ v).parent
          rw [ptr_sided] at hred
          have h₃ := recolor_moved black h₂.placed
          rw [ptr_sided] at h₃
          exact ⟨m₂, some v, hturn.trans hred, h₁.trans (h₂.trans h₃)⟩
        | false =>
          obtain ⟨p, rfl⟩ := hshape
          rw [← plug_append] at h₂
          have h₃ := recolor_black_moved h₂.placed hx
          refine ⟨m₂, x.ptr, hturn, h₁.trans (h₂.trans ?_)⟩
          rwa [plug_append] at h₃ ⊢
      · next near w far hs =>
        obtain rfl : s = sided d black near w far := eq_of_split hs
        obtain ⟨⟨more, t'⟩, hb, hr⟩ := Option.bind_eq_some_iff.1 ht
        obtain ⟨m₁, hborrow, h₁⟩ := borrow_moved h hb
        have hshape := borrow_shape hb
        have hturn := eraseLoop_turn fuel h hx
        rw [if_neg (by decide), bind_some, hborrow, bind_some] at hturn
        cases more with
        | true =>
          obtain ⟨s, rfl⟩ := hshape
          have hparent : (m₁ v).parent = some (TRbTreePath.parent data k) := h₁.placed.links.2.1
          rw [List.length_cons] at hfuel
          obtain ⟨m₂, x', hloop, h₂⟩ := ih h₁.placed hr (Nat.lt_of_succ_lt_succ hfuel)
          rw [ptr_sided, ← hparent] at hloop
          exact ⟨m₂, x', hturn.trans hloop, h₁.trans h₂⟩
        | false =>
          cases hr
          obtain ⟨p, rfl⟩ := hshape
          rw [← plug_append] at h₁ ⊢
          exact ⟨m₁, x.ptr, hturn, h₁.trans (recolor_black_moved h₁.placed hx)⟩

end Borrow

end Rebalance

end Balancer
