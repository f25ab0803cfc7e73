import Balancer.Verify.AvlTreeLinks

/-!
# `Erase` and `Insert` on the nodes of an AVL tree

`EraseImpl` takes a node out (`TakenOut`) and lets its loop put the ancestors right: the nodes are
then those of `TTreeItem.eraseImpl` (`eraseImpl_lies`). `AttachRebal` puts a node where the search
ends, and one `Rebalance` for the first grandparent out of balance is enough (`attachRebal_lies`).
`Head_` and `Tail_` remain the first and the last element (`Ends`).
-/

namespace Balancer

open LinkedTree TAvlMemory TAvlState LinkedTree.Memory LinkedTree.Cell LinkedTree.Tree
  LinkedTree.Path
open TTreeItem (height Heighted Balanced removeFirst removeLast eraseImpl)
open Option (bind_eq_bind bind_some)

variable {T : Type}

/-! ### Nodes are taken out -/

section TakeOut

variable [DecidableEq T] {m : TAvlMemory T} {root : Option T} {s : TAvlState T} {k : TAvlPath T}
  {l r t x near far : TTreeItem T} {d : Side} {el w : T} {h : Nat} {fuel : Nat}

/-- `RemoveEl` of a node that has one child at most. -/
theorem removeEl_lies (hlies : Lies s.nodes s.root k (sided d h x el nil)) :
    Lies (s.removeEl el x.ptr).nodes (s.removeEl el x.ptr).root k x := by
  obtain ⟨-, hparent, -, -⟩ := hlies.links
  obtain ⟨hpath, htree, hdisj⟩ := hlies.disjoint
  have hhangs : Hangs id s.nodes none s.root k (some el) := by
    have hhangs := hlies.hangs
    rwa [ptr_sided] at hhangs
  have hx : ∀ v ∈ x.toList, v ∉ k.elems := fun v hv => hlies.notMem_path (by simp [hv])
  have hfits := hlies.fits
  rw [fits_sided] at hfits
  have hnodup : x.toList.Nodup := by
    rw [nodup_sided] at htree
    exact htree.2.2.1
  simp only [removeEl, hparent, setInParent_eq hhangs (hlies.notMem_path (by simp))]
  refine ⟨?_, ?_, ?_⟩
  · rw [hangs_modify? fun v hv => hx v (ptr_mem hv)]
    exact hangs_hang hhangs hpath _
  · refine fits_moved hfits.2.2.2.2.1 hnodup fun v hv => ?_
    rw [modify?_apply, modify?_apply,
      hang_of_notMem _ _ (hx v hv)]
  · refine List.nodup_append'.2 ⟨hpath, hnodup, fun v hv hmem => hx v ?_ hv⟩
    exact hmem

section Adopted

variable {a b p : Option T} {v : T}

/-- The nodes when `ReplaceEl` has given `w` two children and a parent, which is not told. -/
def adopted (m : TAvlMemory T) (w : T) (a b p : Option T) : TAvlMemory T :=
  ((((m.modify w (setChild .left a)).modify? a (setParent (some w))).modify w
    (setChild .right b)).modify? b (setParent (some w))).modify w (setParent p)

theorem adopted_self (ha : a ≠ some w) (hb : b ≠ some w) :
    adopted m w a b p w = ⟨(m w).info, p, a, b⟩ := by
  simp [adopted, modify?_apply, ha, hb, setChild, setParent]

theorem adopted_of_ne (h : v ≠ w) : adopted m w a b p v =
    ((m.modify? a (setParent (some w))).modify? b (setParent (some w))) v := by
  simp [adopted, modify_apply, modify?_apply, h]

theorem adopted_of_notMem (hw : v ≠ w) (hl : v ∉ l.toList) (hr : v ∉ r.toList) :
    adopted m w l.ptr r.ptr p v = m v := by
  rw [adopted_of_ne hw, modify?_of_ne (ptr_ne hr), modify?_of_ne (ptr_ne hl)]

/-- Two subtrees below a new node `w`. -/
theorem fits_adopted {m' : TAvlMemory T} {q : Option T} (hl : Fits id m q l) (hr : Fits id m q r)
    (hnodup : (node h l w r).toList.Nodup) (hw : m' w = ⟨h, p, l.ptr, r.ptr⟩)
    (hm' : ∀ v, v ∈ l.toList ∨ v ∈ r.toList → m' v = adopted m w l.ptr r.ptr p v) :
    Fits id m' p (node h l w r) := by
  rw [nodup_node] at hnodup
  obtain ⟨hwl, hwr, hlnodup, hrnodup, hlr⟩ := hnodup
  rw [Fits, hw]
  refine ⟨rfl, rfl, rfl, rfl, ?_, ?_⟩
  · refine fits_moved hl hlnodup fun v hv => ?_
    rw [hm' v (.inl hv), adopted_of_ne (ne_of_mem_of_not_mem hv hwl),
      modify?_of_ne (ptr_ne_of_disjoint hlr hv)]
  · refine fits_moved hr hrnodup fun v hv => ?_
    rw [hm' v (.inr hv), adopted_of_ne (ne_of_mem_of_not_mem hv hwr), modify?_apply,
      modify?_of_ne (ptr_ne_of_disjoint hlr.symm hv), modify?_apply]

end Adopted

omit [DecidableEq T] in
theorem nodup_replaced (hnodup : (k.elems ++ (node h l el r).toList).Nodup) (hk : w ∉ k.elems)
    (ht : w ∉ (node h l el r).toList) : (k.elems ++ (node h l w r).toList).Nodup := by
  rw [toList_node] at *
  grind

/-- `ReplaceEl` by a node that is not in the tree. -/
theorem replaceEl_lies (hlies : Lies s.nodes s.root k (node h l el r)) (hk : w ∉ k.elems)
    (ht : w ∉ (node h l el r).toList) :
    Lies (s.replaceEl el w).nodes (s.replaceEl el w).root k (node h l w r) := by
  obtain ⟨hinfo, hparent, hleft, hright⟩ := hlies.links (d := .left)
  obtain ⟨hpath, htree, hdisj⟩ := hlies.disjoint
  obtain ⟨-, -, -, -, hfits_l, hfits_r⟩ := hlies.fits
  have hnotMem : ∀ v ∈ (node h l el r).toList, v ∉ k.elems := fun v hv => hlies.notMem_path hv
  have hnodup := nodup_replaced (List.nodup_append'.2 ⟨hpath, htree, hdisj⟩) hk ht
  rw [toList_node, List.mem_append, List.mem_cons, not_or, not_or] at ht
  obtain ⟨hwl, hwel, hwr⟩ := ht
  rw [nodup_node] at htree
  obtain ⟨hell, helr, -⟩ := htree
  have hhangs : Hangs id (adopted s.nodes w l.ptr r.ptr (k.ptr none)) none s.root k (some el) := by
    refine (hangs_congr fun v hv => .of_eq ?_).2 hlies.hangs
    have hvt : v ∉ (node h l el r).toList := fun hmem => hnotMem v hmem hv
    rw [toList_node, List.mem_append, List.mem_cons, not_or, not_or] at hvt
    exact adopted_of_notMem (ne_of_mem_of_not_mem hv hk) hvt.1 hvt.2.2
  have hreplace : s.replaceEl el w = { s with
      nodes := (hang (adopted s.nodes w l.ptr r.ptr (k.ptr none)) s.root k (some w)).1.modify w
        (setInfo ((hang (adopted s.nodes w l.ptr r.ptr (k.ptr none)) s.root k (some w)).1 el).info),
      root := (hang (adopted s.nodes w l.ptr r.ptr (k.ptr none)) s.root k (some w)).2 } := by
    rw [← setInParent_eq hhangs (hnotMem el (by simp))]
    simp only [replaceEl, hparent, show (s.nodes el).left = l.ptr from hleft,
      show (s.nodes el).right = r.ptr from hright]
    rfl
  rw [hreplace, hang_of_notMem _ _ (hnotMem el (by simp)),
    adopted_of_notMem (Ne.symm hwel) hell helr, hinfo]
  show Lies ((hang _ s.root k (some w)).1.modify w (setInfo h)) _ k _
  refine ⟨?_, fits_adopted hfits_l hfits_r (List.nodup_append'.1 hnodup).2.1 ?_ fun v hv => ?_, ?_⟩
  · rw [hangs_modify hk]
    exact hangs_hang hhangs hpath (some w)
  · rw [modify_self, hang_of_notMem _ _ hk, adopted_self (ptr_ne hwl) (ptr_ne hwr)]
    rfl
  · have hmem : v ∈ (node h l el r).toList ∧ v ≠ w := by
      rw [toList_node]
      grind
    rw [modify_of_ne hmem.2, hang_of_notMem _ _ (hnotMem v hmem.1)]
  · exact hnodup

omit [DecidableEq T] in
/-- The last node of a subtree on the side `d`, and the way to it. -/
theorem descend_lies {a : T} (hlies : Lies m root k t) (hptr : t.ptr = some a)
    (hfuel : t.toList.length ≤ fuel) :
    ∃ (down : TAvlPath T) (w : T) (h : Nat) (x : TTreeItem T), descend d m fuel a = some w ∧
      (∀ f ∈ down, f.side = d) ∧ t = down.plug (sided d h nil w x) := by
  induction fuel generalizing t k a with
  | zero =>
    have hnil := toList_eq_nil.1 (List.length_eq_zero_iff.1 (Nat.le_zero.1 hfuel))
    rw [hnil] at hptr
    cases hptr
  | succ fuel ih =>
    obtain ⟨n, near, far, rfl⟩ := exists_sided d hptr
    rw [length_toList_sided] at hfuel
    obtain ⟨-, -, hnear, -⟩ := hlies.links
    cases hb : near.ptr with
    | none =>
      cases ptr_eq_none.1 hb
      refine ⟨[], a, n, far, ?_, by simp, rfl⟩
      rw [descend, hnear, hb]
    | some b =>
      have hlies' : Lies m root (⟨d, n, a, far⟩ :: k) near := lies_cons.2 hlies
      obtain ⟨down, w, h, x, hdescend, hside, hplug⟩ := ih hlies' hb (by omega)
      refine ⟨down ++ [⟨d, n, a, far⟩], w, h, x, ?_, ?_, ?_⟩
      · rw [descend, hnear, hb]
        exact hdescend
      · simp only [List.forall_mem_append, List.forall_mem_singleton]
        exact ⟨hside, trivial⟩
      · rw [plug_append, ← hplug]
        rfl

theorem replaceEl_sided (hlies : Lies s.nodes s.root k (sided d h near el far)) (hk : w ∉ k.elems)
    (ht : w ∉ (sided d h near el far).toList) :
    Lies (s.replaceEl el w).nodes (s.replaceEl el w).root k (sided d h near w far) := by
  cases d <;> exact replaceEl_lies hlies hk ht

@[simp] theorem replaceEnd_nodes (d : Side) (el : T) (p : Option T) :
    (s.replaceEnd d el p).nodes = s.nodes := by
  cases d <;> (rw [replaceEnd]; split <;> rfl)

@[simp] theorem replaceEnd_root (d : Side) (el : T) (p : Option T) :
    (s.replaceEnd d el p).root = s.root := by
  cases d <;> (rw [replaceEnd]; split <;> rfl)

@[simp] theorem replaceEnd_tree (d : Side) (el : T) (p : Option T) :
    (s.replaceEnd d el p).tree = s.tree := by
  cases d <;> (rw [replaceEnd]; split <;> rfl)

/-- `EraseImpl(el)` up to `fixfrom`, for an element with a child on the side `d`: the last node `w`
on the other side below the child leaves its place to `x` and takes that of `el`. -/
theorem replace_lies {child : T} (hlies : Lies s.nodes s.root k (sided d h near el far))
    (hchild : near.ptr = some child) (hfuel : near.toList.length ≤ fuel) :
    ∃ (down : TAvlPath T) (w : T) (hw : Nat) (x : TTreeItem T) (s' : TAvlState T),
      (∀ f ∈ down, f.side = d.other) ∧ near = down.plug (sided d hw x w nil) ∧
      s.replace d fuel el child = some (s', Path.ptr none (down ++ ⟨d, h, w, far⟩ :: k)) ∧
      Lies s'.nodes s'.root (down ++ ⟨d, h, w, far⟩ :: k) x ∧
      Rearranged (s.replaceEnd d el (some w)) s' := by
  have hnear : Lies s.nodes s.root (⟨d, h, el, far⟩ :: k) near := lies_cons.2 hlies
  obtain ⟨down, w, hw, x, hdescend, hside, hplug⟩ := descend_lies (d := d.other) hnear hchild hfuel
  rw [sided_other] at hplug
  have hw_lies : Lies s.nodes s.root (down ++ ⟨d, h, el, far⟩ :: k) (sided d hw x w nil) := by
    rwa [lies_append, ← hplug]
  obtain ⟨-, hparent, hx, -⟩ := hw_lies.links
  have hfixfrom : (if (s.nodes w).parent = some el then some w else (s.nodes w).parent) =
      Path.ptr none (down ++ ⟨d, h, w, far⟩ :: k) := by
    rw [hparent]
    cases down with
    | nil => exact if_pos rfl
    | cons g down =>
      refine if_neg fun heq => (List.nodup_cons.1 hw_lies.disjoint.1).1 (List.mem_append_right _ ?_)
      rw [show g.val = el from Option.some.inj heq]
      exact val_mem (f := ⟨d, h, el, far⟩) (by simp)
  -- `w` leaves its place
  have hremoved : Lies ((s.replaceEnd d el (some w)).removeEl w x.ptr).nodes
      ((s.replaceEnd d el (some w)).removeEl w x.ptr).root (down ++ ⟨d, h, el, far⟩ :: k) x :=
    removeEl_lies (by simpa using hw_lies)
  have hw_path : w ∉ (plug (down ++ ⟨d, h, el, far⟩ :: k) x).toList := by
    rw [mem_toList_plug, not_or]
    refine ⟨hw_lies.notMem_path (by simp), ?_⟩
    have htree := hw_lies.disjoint.2.1
    rw [nodup_sided] at htree
    exact htree.1
  rw [plug_append, plug, mem_toList_plug, not_or] at hw_path
  -- and takes that of `el`
  have hreplaced := replaceEl_sided (lies_cons.1 (lies_append.1 hremoved)) hw_path.1 hw_path.2
  refine ⟨down, w, hw, x, _, hside, hplug, ?_, lies_append.2 (lies_cons.2 hreplaced),
    ⟨rfl, rfl, rfl⟩⟩
  simp only [replace, hdescend, bind_eq_bind, bind_some, replaceEnd_nodes, hx, hfixfrom]

end TakeOut

/-! ### What is left of the value -/

section Values

variable {k k' : TAvlPath T} {f : TAvlFrame T} {l r t x : TTreeItem T} {el w : T} {h n : Nat}

open TAvlPath LinkedTree.Path

theorem heighted_plug : Heighted (f.plug t) ↔ t.Heighted ∧ Heighted f.sibling ∧
    f.info = max t.height (height f.sibling) + 1 := by
  obtain ⟨d, n, x, s⟩ := f
  cases d with
  | left => exact Iff.rfl
  | right =>
    simp only [Frame.plug, sided, TTreeItem.Heighted, max_comm]
    tauto

/-- Around a place in a tree with the right heights. -/
theorem around_of_heighted (hheighted : Heighted (k.plug t)) :
    t.Heighted ∧ (∀ f ∈ k, Heighted f.sibling) ∧ k.Measured t.height := by
  induction k generalizing t with
  | nil => exact ⟨hheighted, by simp, trivial⟩
  | cons f k ih =>
    obtain ⟨hf, hk, hmeasured⟩ := ih hheighted
    obtain ⟨ht, hs, hheight⟩ := heighted_plug.1 hf
    rw [show height (f.plug t) = f.info from TTreeItem.height_sided] at hmeasured
    exact ⟨ht, List.forall_mem_cons.2 ⟨hs, hk⟩, hheight, hmeasured⟩

/-- Only the heights count. -/
theorem measured_setVal : Measured (k ++ { f with val := w } :: k') h ↔
    Measured (k ++ f :: k') h := by
  induction k generalizing h with
  | nil => exact Iff.rfl
  | cons g k ih => rw [List.cons_append, Measured, ih, List.cons_append, Measured]

theorem nodup_of_plug (hnodup : (k.plug t).toList.Nodup) : t.toList.Nodup := by
  rw [toList_plug] at hnodup
  exact hnodup.of_append_left.of_append_right

theorem removeFirst_plug (hside : ∀ f ∈ k, f.side = .left) (ht : t.removeFirst = some (w, x)) :
    removeFirst (k.plug t) = some (w, k.fixup x) := by
  induction k generalizing t x with
  | nil => exact ht
  | cons f k ih =>
    rw [List.forall_mem_cons] at hside
    refine ih hside.2 ?_
    rw [Frame.plug, TAvlFrame.fix, hside.1, sided, TTreeItem.removeFirst, ht]

theorem removeLast_plug (hside : ∀ f ∈ k, f.side = .right) (ht : t.removeLast = some (w, x)) :
    removeLast (k.plug t) = some (w, k.fixup x) := by
  induction k generalizing t x with
  | nil => exact ht
  | cons f k ih =>
    rw [List.forall_mem_cons] at hside
    refine ih hside.2 ?_
    rw [Frame.plug, TAvlFrame.fix, hside.1, sided, TTreeItem.removeLast, ht]

variable [DecidableEq T]

/-- Below the place nothing is seen of what is around it. -/
theorem eraseImpl_plug (hnodup : (k.plug t).toList.Nodup) (hel : el ∈ t.toList) :
    eraseImpl el (k.plug t) = k.fixup (t.eraseImpl el) := by
  induction k generalizing t with
  | nil => rfl
  | cons f k ih =>
    have hf : eraseImpl el (f.plug t) = TAvlFrame.fix f (t.eraseImpl el) := by
      have hplug := nodup_of_plug (k := k) hnodup
      obtain ⟨d, n, x, s⟩ := f
      cases d with
      | left =>
        have hx : x ≠ el := fun heq => (List.nodup_append.1 hplug).2.2 el hel x (by simp) heq.symm
        rw [Frame.plug, sided, TTreeItem.eraseImpl, if_neg hx, if_pos hel, TAvlFrame.fix]
      | right =>
        obtain ⟨-, hxt, hdisj⟩ := List.nodup_append.1 hplug
        have hx : x ≠ el := fun heq => (List.nodup_cons.1 hxt).1 (heq ▸ hel)
        have hs : el ∉ s.toList := fun hmem => hdisj el hmem el (by simp [hel]) rfl
        rw [Frame.plug, sided, TTreeItem.eraseImpl, if_neg hx, if_neg hs, TAvlFrame.fix]
    rw [plug, ih hnodup (by simp [Frame.plug, hel]), hf, TAvlPath.fixup]

/-- The replacement of a node with a child on the side `d`, and on no other side unless it is the
right one. -/
theorem eraseImpl_sided {d : Side} {down : TAvlPath T} {far : TTreeItem T}
    (hside : ∀ f ∈ down, f.side = d.other) (hfar : d = .left → far = nil) :
    eraseImpl el (sided d h (down.plug (sided d n x w nil)) el far) =
      TAvlFrame.fix ⟨d, h, w, far⟩ (down.fixup x) := by
  cases d with
  | left =>
    cases hfar rfl
    have hlast : removeLast (node n x w nil) = some (w, x) := rfl
    rw [sided, TTreeItem.eraseImpl, if_pos rfl, TTreeItem.replacement]
    simp only [TTreeItem.removeFirst, sided, removeLast_plug hside hlast]
    rfl
  | right =>
    have hfirst : removeFirst (node n nil w x) = some (w, x) := rfl
    rw [sided, TTreeItem.eraseImpl, if_pos rfl, TTreeItem.replacement]
    simp only [sided, removeFirst_plug hside hfirst]
    rfl

end Values

/-! ### `Head_` and `Tail_` -/

/-- `Head_` and `Tail_` are the first and the last element. -/
structure Ends (s : TAvlState T) (elements : List T) : Prop where
  head : s.head = elements.head?
  tail : s.tail = elements.getLast?

section Ends

variable {s s' : TAvlState T} {k : TAvlPath T} {el : T} {p : Option T} {l r : List T}

theorem Ends.rearranged (h : Ends s l) (hre : Rearranged s s') : Ends s' l :=
  ⟨hre.head.trans h.head, hre.tail.trans h.tail⟩

/-- In front of the place of the first element there is no ancestor on the left, so the next one is
its parent. -/
theorem head?_after (h : k.before = []) : k.after.head? = k.ptr none := by
  cases k with
  | nil => rfl
  | cons f k =>
    obtain ⟨d, n, x, s⟩ := f
    cases d with
    | left => rfl
    | right => simp [Path.before] at h

theorem getLast?_before (h : k.after = []) : k.before.getLast? = k.ptr none := by
  cases k with
  | nil => rfl
  | cons f k =>
    obtain ⟨d, n, x, s⟩ := f
    cases d with
    | left => simp [Path.after] at h
    | right => simp [Path.before, Path.ptr]

variable [DecidableEq T]

/-- `Head_`, if its element is taken out and `p` is the next one. -/
theorem replaceEnd_right (hnodup : (l ++ el :: r).Nodup) (hhead : s.head = (l ++ el :: r).head?)
    (hp : l = [] → r.head? = p) :
    (s.replaceEnd .right el p).head = (l ++ r).head? ∧
      (s.replaceEnd .right el p).tail = s.tail := by
  rw [replaceEnd, hhead]
  cases l with
  | nil => exact ⟨by simpa using (hp rfl).symm, by simp⟩
  | cons x l =>
    have hx : (x :: l ++ el :: r).head? ≠ some el := by
      intro heq
      cases heq
      exact (List.nodup_cons.1 hnodup).1 (by simp)
    rw [if_neg hx]
    exact ⟨hhead, rfl⟩

/-- `Tail_`, if its element is taken out and `p` is the one before. -/
theorem replaceEnd_left (hnodup : (l ++ el :: r).Nodup) (htail : s.tail = (l ++ el :: r).getLast?)
    (hp : r = [] → l.getLast? = p) :
    (s.replaceEnd .left el p).tail = (l ++ r).getLast? ∧
      (s.replaceEnd .left el p).head = s.head := by
  rw [replaceEnd, htail]
  rcases List.eq_nil_or_concat' r with rfl | ⟨r, x, rfl⟩
  · exact ⟨by simpa using (hp rfl).symm, by simp⟩
  · have hlast : (l ++ el :: (r ++ [x])).getLast? = some x := by
      rw [← List.cons_append, ← List.append_assoc, List.getLast?_concat]
    have hx : (l ++ el :: (r ++ [x])).getLast? ≠ some el := by
      intro heq
      cases hlast.symm.trans heq
      exact (List.nodup_cons.1 (List.nodup_append.1 hnodup).2.1).1 (by simp)
    rw [if_neg hx, htail, hlast]
    exact ⟨by simp, rfl⟩

end Ends

/-! ### `EraseImpl` -/

section EraseImpl

variable {s : TAvlState T} {k : TAvlPath T} {l r x near far t : TTreeItem T} {d : Side}
  {el w child : T}
  {h n fuel : Nat}

open TAvlPath LinkedTree.Path

theorem before_of_left {down : TAvlPath T} (hside : ∀ f ∈ down, f.side = .left) :
    down.before = [] := by
  induction down with
  | nil => rfl
  | cons f down ih =>
    obtain ⟨d, n, y, u⟩ := f
    rw [List.forall_mem_cons] at hside
    cases hside.1
    exact ih hside.2

theorem after_of_right {down : TAvlPath T} (hside : ∀ f ∈ down, f.side = .right) :
    down.after = [] := by
  induction down with
  | nil => rfl
  | cons f down ih =>
    obtain ⟨d, n, y, u⟩ := f
    rw [List.forall_mem_cons] at hside
    cases hside.1
    exact ih hside.2

/-- Every element is in some place. -/
theorem exists_plug (hel : el ∈ t.toList) :
    ∃ (k : TAvlPath T) (l : TTreeItem T) (h : Nat) (r : TTreeItem T),
    t = k.plug (node h l el r) := by
  induction t with
  | nil => cases hel
  | node h l x r ihl ihr =>
    rw [toList_node, List.mem_append, List.mem_cons] at hel
    rcases hel with hel | rfl | hel
    · obtain ⟨k, a, n, b, rfl⟩ := ihl hel
      refine ⟨k ++ [⟨.left, h, x, r⟩], a, n, b, ?_⟩
      rw [plug_append]
      rfl
    · exact ⟨[], l, h, r, rfl⟩
    · obtain ⟨k, a, n, b, rfl⟩ := ihr hel
      refine ⟨k ++ [⟨.right, h, x, l⟩], a, n, b, ?_⟩
      rw [plug_append]
      rfl

theorem head?_middle {l r : List T} (hl : l ≠ []) : (l ++ el :: r).head? = (l ++ r).head? := by
  rw [List.head?_append_of_ne_nil _ hl, List.head?_append_of_ne_nil _ hl]

theorem getLast?_middle {l r : List T} (hr : r ≠ []) :
    (l ++ el :: r).getLast? = (l ++ r).getLast? := by
  rw [List.append_cons, List.getLast?_append_of_ne_nil _ hr, List.getLast?_append_of_ne_nil _ hr]

variable [DecidableEq T]

/-- The state when `fixfrom` is known: the heights of the ancestors of `x` are all that has to be
put right. -/
structure TakenOut (s s' : TAvlState T) (t : TTreeItem T) (el : T) (k : TAvlPath T)
    (x : TTreeItem T) : Prop where
  lies : Lies s'.nodes s'.root k x
  measured : k.MeasuredAbove
  siblings : ∀ f ∈ k, Heighted f.sibling
  heighted : x.Heighted
  fixup : k.fixup x = t.eraseImpl el
  ends : Ends s' (t.toList.erase el)
  tree : s'.tree = s.tree

theorem erase_middle {l r : List T} (hnodup : (l ++ el :: r).Nodup) :
    (l ++ el :: r).erase el = l ++ r := by
  have hl : el ∉ l := fun hmem => (List.nodup_append.1 hnodup).2.2 el hmem el (by simp) rfl
  rw [List.erase_append_right _ hl, List.erase_cons_head]

/-- The ends, if `w` takes the place of `el`. -/
theorem replaceEnd_ends {down : TAvlPath T} (hside : ∀ f ∈ down, f.side = d.other)
    (hnodup : (k.plug (sided d h (down.plug (sided d n x w nil)) el far)).toList.Nodup)
    (hends : Ends s (k.plug (sided d h (down.plug (sided d n x w nil)) el far)).toList) :
    Ends (s.replaceEnd d el (some w))
      ((k.plug (sided d h (down.plug (sided d n x w nil)) el far)).toList.erase el) := by
  cases d with
  | right =>
    have hhead : (down.plug (node n nil w x)).toList.head? = some w := by
      rw [toList_plug, before_of_left hside]
      rfl
    have hne : (down.plug (node n nil w x)).toList ≠ [] := fun hnil => by simp [hnil] at hhead
    have hlist : (k.plug (node h far el (down.plug (node n nil w x)))).toList =
        k.before ++ far.toList ++ el :: ((down.plug (node n nil w x)).toList ++ k.after) := by
      rw [toList_plug]
      simp
    simp only [sided, hlist] at hends hnodup ⊢
    obtain ⟨hhead', htail'⟩ := replaceEnd_right hnodup hends.head fun _ => by
      rw [List.head?_append_of_ne_nil _ hne, hhead]
    rw [erase_middle hnodup]
    exact ⟨hhead', htail'.trans (hends.tail.trans (getLast?_middle (by simp [hne])))⟩
  | left =>
    have hlast : (down.plug (node n x w nil)).toList.getLast? = some w := by
      rw [toList_plug, after_of_right hside]
      simp
    have hne : (down.plug (node n x w nil)).toList ≠ [] := fun hnil => by simp [hnil] at hlast
    have hlist : (k.plug (node h (down.plug (node n x w nil)) el far)).toList =
        k.before ++ (down.plug (node n x w nil)).toList ++ el :: (far.toList ++ k.after) := by
      rw [toList_plug]
      simp
    simp only [sided, hlist] at hends hnodup ⊢
    obtain ⟨htail', hhead'⟩ := replaceEnd_left hnodup hends.tail fun _ => by
      rw [List.getLast?_append_of_ne_nil _ hne, hlast]
    rw [erase_middle hnodup]
    exact ⟨hhead'.trans (hends.head.trans (head?_middle (by simp [hne]))), htail'⟩

/-- With a child on the side `d`. -/
theorem replace_takenOut (hlies : Lies s.nodes s.root k (sided d h near el far))
    (hchild : near.ptr = some child) (hfar : d = .left → far = nil)
    (hheighted : Heighted (k.plug (sided d h near el far)))
    (hends : Ends s (k.plug (sided d h near el far)).toList) (hfuel : near.toList.length ≤ fuel) :
    ∃ s' k' x, s.replace d fuel el child = some (s', Path.ptr none k') ∧
      TakenOut s s' (k.plug (sided d h near el far)) el k' x := by
  obtain ⟨down, w, hw, x, s', hside, hnear, hreplace, hlies', hre⟩ :=
    replace_lies hlies hchild hfuel
  have hnodup : (k.plug (sided d h near el far)).toList.Nodup := (lies_plug.1 hlies).disjoint.2.1
  -- around the place that `w` leaves
  have hplug : k.plug (sided d h near el far) =
      plug (down ++ ⟨d, h, el, far⟩ :: k) (Frame.plug ⟨d, hw, w, nil⟩ x) := by
    rw [plug_append, hnear]
    rfl
  obtain ⟨hw_heighted, hsiblings, hmeasured⟩ := around_of_heighted (hplug ▸ hheighted)
  rw [List.forall_mem_append, List.forall_mem_cons] at hsiblings
  refine ⟨s', _, x, hreplace, hlies', Measured.above (measured_setVal.2 hmeasured), ?_,
    (heighted_plug.1 hw_heighted).1, ?_, Ends.rearranged ?_ hre, ?_⟩
  · rw [List.forall_mem_append, List.forall_mem_cons]
    exact hsiblings
  · rw [fixup_append, TAvlPath.fixup, eraseImpl_plug hnodup (by simp), hnear,
      eraseImpl_sided hside hfar]
  · rw [hnear] at hends hnodup ⊢
    exact replaceEnd_ends hside hnodup hends
  · rw [hre.tree, replaceEnd_tree]

/-- Without children. -/
theorem leaf_takenOut (hlies : Lies s.nodes s.root k (node h nil el nil))
    (hheighted : Heighted (k.plug (node h nil el nil)))
    (hends : Ends s (k.plug (node h nil el nil)).toList) :
    TakenOut s (((s.replaceEnd .right el (k.ptr none)).replaceEnd .left el (k.ptr none)).removeEl el
      none) (k.plug (node h nil el nil)) el k nil := by
  have hnodup : (k.plug (node h nil el nil)).toList.Nodup := (lies_plug.1 hlies).disjoint.2.1
  obtain ⟨-, hsiblings, hmeasured⟩ := around_of_heighted hheighted
  have hleaf : Lies ((s.replaceEnd .right el (k.ptr none)).replaceEnd .left el (k.ptr none)).nodes
      ((s.replaceEnd .right el (k.ptr none)).replaceEnd .left el (k.ptr none)).root k
        (sided .left h nil el nil) := by
    simp only [replaceEnd_nodes, replaceEnd_root]
    exact hlies
  have hlist : (k.plug (node h nil el nil)).toList = k.before ++ el :: k.after := by
    rw [toList_plug]
    simp
  refine ⟨removeEl_lies hleaf, hmeasured.above, hsiblings, trivial, ?_, ?_, ?_⟩
  · rw [eraseImpl_plug hnodup (by simp), TTreeItem.eraseImpl, if_pos rfl]
    rfl
  · rw [hlist] at hends hnodup ⊢
    obtain ⟨hhead, htail⟩ := replaceEnd_right hnodup hends.head head?_after
    obtain ⟨htail', hhead'⟩ := replaceEnd_left hnodup (htail.trans hends.tail) getLast?_before
    rw [erase_middle hnodup]
    exact ⟨hhead'.trans hhead, htail'⟩
  · simp [removeEl]

/-- `EraseImpl(el)` up to `fixfrom`. -/
theorem takeOut_takenOut (hlies : Lies s.nodes s.root k (node h l el r))
    (hheighted : Heighted (k.plug (node h l el r))) (hends : Ends s (k.plug (node h l el r)).toList)
    (hfuel : (k.plug (node h l el r)).toList.length ≤ fuel) :
    ∃ s' k' x, s.takeOut fuel el = some (s', Path.ptr none k') ∧
      TakenOut s s' (k.plug (node h l el r)) el k' x := by
  have hlen := (length_le_plug k (node h l el r)).trans hfuel
  rw [toList_node, List.length_append, List.length_cons] at hlen
  obtain ⟨-, hparent, hleft, hright⟩ := hlies.links (d := .left)
  rw [takeOut, show (s.nodes el).right = r.ptr from hright,
    show (s.nodes el).left = l.ptr from hleft]
  cases hr : r.ptr with
  | some child => exact replace_takenOut (d := .right) hlies hr nofun hheighted hends (by omega)
  | none =>
    cases ptr_eq_none.1 hr
    cases hl : l.ptr with
    | some child =>
      exact replace_takenOut (d := .left) hlies hl (fun _ => rfl) hheighted hends (by omega)
    | none =>
      cases ptr_eq_none.1 hl
      rw [hparent]
      exact ⟨_, k, nil, rfl, leaf_takenOut hlies hheighted hends⟩

theorem eraseImpl_lies (hlies : Lies s.nodes s.root [] t) (hheighted : t.Heighted)
    (hends : Ends s t.toList) (hel : el ∈ t.toList) (hfuel : t.toList.length < fuel) :
    ∃ s', s.eraseImpl fuel el = some s' ∧ Lies s'.nodes s'.root [] (t.eraseImpl el) ∧
      Ends s' (t.toList.erase el) ∧ s'.tree = Function.update s.tree el false := by
  have hnodup : t.toList.Nodup := hlies.disjoint.2.1
  obtain ⟨k, l, h, r, rfl⟩ := exists_plug hel
  have hlies₀ : Lies { s with tree := Function.update s.tree el false }.nodes s.root k
    (node h l el r) :=
    lies_plug.2 hlies
  obtain ⟨s₁, k', x, htake, htaken⟩ :=
    takeOut_takenOut hlies₀ hheighted ⟨hends.head, hends.tail⟩ hfuel.le
  have hlen : k'.length < fuel := by
    have hle := length_le_plug k' x
    rw [← toList_fixup, htaken.fixup, TTreeItem.toList_eraseImpl hnodup hel,
      List.length_erase_of_mem hel] at hle
    omega
  obtain ⟨m, hrecalc, hlies₂⟩ := recalcHeights_lies htaken.lies htaken.measured hlen
  obtain ⟨s', hloop, hre, hlies'⟩ :=
    fixLoop_lies (s := { s₁ with nodes := m }) hlies₂ (measured_reheight _ _)
    (heighted_reheight htaken.siblings _) htaken.heighted (by rwa [length_reheight])
    (show _ < fuel by rwa [length_reheight])
  rw [fixup_reheight, htaken.fixup] at hlies'
  rw [ptr_reheight] at hloop
  cases k' with
  | nil =>
    -- the tree has become `x`
    refine ⟨s₁, ?_, ?_, htaken.ends, htaken.tree⟩
    · simp only [TAvlState.eraseImpl, htake, Option.bind_eq_bind, Option.bind_some]
      exact if_pos rfl
    · rw [← htaken.fixup]
      exact htaken.lies
  | cons f k' =>
    refine ⟨s', ?_, hlies', htaken.ends.rearranged ⟨hre.tree, hre.head, hre.tail⟩,
      hre.tree.trans htaken.tree⟩
    simp only [TAvlState.eraseImpl, htake, hrecalc, Option.bind_eq_bind, Option.bind_some, hloop]
    exact if_neg (Option.some_ne_none _)

end EraseImpl

/-! ### `AttachRebal` -/

/-- Above a subtree of the height `h` every node is in balance. -/
def TAvlPath.Loose : TAvlPath T → Nat → Prop
  | [], _ => True
  | f :: k, h =>
    Balanced f.sibling ∧ h ≤ height f.sibling + 1 ∧ height f.sibling ≤ h + 1 ∧
      Loose k (max h (height f.sibling) + 1)

section Attach

variable {s : TAvlState T} {m : TAvlMemory T} {root : Option T} {k : TAvlPath T}
  {f g : TAvlFrame T} {t n₁ n₂ u w : TTreeItem T} {d e : Side} {el p gp v : T} {h n fuel : Nat}

open TAvlPath LinkedTree.Path

@[simp] theorem loose_reheight : (k.reheight n).Loose h ↔ k.Loose h := by
  induction k generalizing n h with
  | nil => exact Iff.rfl
  | cons f k ih => rw [reheight, Loose, Loose, ih]

theorem balanced_plug : Balanced (f.plug t) ↔ t.Balanced ∧ Balanced f.sibling ∧
    f.info = max t.height (height f.sibling) + 1 ∧ t.height ≤ height f.sibling + 1 ∧
    height f.sibling ≤ t.height + 1 := by
  obtain ⟨d, n, x, s⟩ := f
  cases d with
  | left => exact Iff.rfl
  | right =>
    simp only [Frame.plug, sided, TTreeItem.Balanced, max_comm]
    tauto

/-- Around a place in a balanced tree. -/
theorem around_of_balanced (hbal : Balanced (k.plug t)) :
    t.Balanced ∧ k.Loose t.height ∧ k.Measured t.height := by
  induction k generalizing t with
  | nil => exact ⟨hbal, trivial, trivial⟩
  | cons f k ih =>
    obtain ⟨hf, hloose, hmeasured⟩ := ih hbal
    obtain ⟨ht, hs, hheight, hle, hge⟩ := balanced_plug.1 hf
    rw [show height (f.plug t) = f.info from TTreeItem.height_sided] at hloose hmeasured
    exact ⟨ht, ⟨hs, hle, hge, hheight ▸ hloose⟩, hheight, hmeasured⟩

/-- Nothing is to be done above a subtree of the right height. -/
theorem fixup_of_loose (hloose : k.Loose t.height) (hmeasured : k.Measured t.height) :
    k.fixup t = k.plug t := by
  induction k generalizing t with
  | nil => rfl
  | cons f k ih =>
    obtain ⟨-, hle, hge, hk⟩ := hloose
    obtain ⟨hf, hmeasured⟩ := hmeasured
    have hplug : height (f.plug t) = f.info := TTreeItem.height_sided
    rw [TAvlPath.fixup, fix_of_balanced hle hge hf, plug]
    exact ih (by rwa [hplug, hf]) (by rwa [hplug])

theorem findFirstUnbalGPLoop_none (hlies : Lies m root (f :: k) t) (ht : t.ptr = some v)
    (hloose : k.Loose f.info) (hmeasured : k.Measured f.info) (hfuel : k.length < fuel) :
    findFirstUnbalGPLoop m fuel (some v) (k.ptr none) = some none := by
  induction k generalizing f t v fuel with
  | nil =>
    obtain ⟨fuel, rfl⟩ := Nat.exists_eq_add_one.2 hfuel.pos
    rfl
  | cons g k ih =>
    obtain ⟨fuel, rfl⟩ := Nat.exists_eq_add_one.2 hfuel.pos
    have hg := lies_cons.1 hlies
    have hplug : height (f.plug t) = f.info := TTreeItem.height_sided
    obtain ⟨-, hle, hge, hk⟩ := hloose
    have hbal : ¬isUnbal m g.val = true := by
      rw [hg.isUnbal_iff, hplug]
      omega
    have hparent : (m v).parent = some f.val := by
      obtain ⟨n, a, b, rfl⟩ := exists_sided .left ht
      exact hlies.links.2.1
    rw [Path.ptr, findFirstUnbalGPLoop, if_neg hbal, hparent, hg.frame.2.1]
    exact ih hg ptr_sided (hmeasured.1 ▸ hk) hmeasured.2 (Nat.lt_of_succ_lt_succ hfuel)

/-- `Rebalance` for a grandchild that is the higher one. -/
theorem fix_eq_arrange (hlt : u.height < n) (hgt : w.height + 1 < h) :
    TAvlFrame.fix ⟨d, fuel, gp, w⟩ (sided e h (node n n₁ v n₂) p u) =
      arrange d e n₁ v n₂ p u gp w := by
  have hngt : ¬h + 1 < w.height := by omega
  have hnlt : ¬n < u.height := by omega
  cases d <;> cases e <;>
    simp only [TAvlFrame.fix, sided, TTreeItem.rebalance, TTreeItem.height_node, hlt, hgt, hngt,
      hnlt, if_true,
      if_false, arrange]

/-- The height that the subtree of `gp` had before `n` grew. -/
theorem height_arrange (hu : u.height = max n₁.height n₂.height)
    (hw : w.height = max n₁.height n₂.height) :
    (arrange d e n₁ v n₂ p u gp w).height = max n₁.height n₂.height + 2 := by
  cases d <;> cases e <;>
    simp only [arrange, TTreeItem.rebuild, TTreeItem.recalc, TTreeItem.height_node, hu,
      hw] <;> omega

/-- A child is in the tree. -/
theorem Lies.child_mem (hlies : Lies m root [] t) (hv : v ∈ t.toList) {c : T}
    (hc : (m v).child d = some c) : c ∈ t.toList := by
  obtain ⟨k, l, h, r, rfl⟩ := exists_plug hv
  obtain ⟨a, n, b, hab⟩ := exists_sided (t := node h l v r) d rfl
  rw [hab] at hlies ⊢
  have hlinks := (lies_plug.2 hlies).links
  rw [hlinks.2.2.1] at hc
  exact mem_toList_plug.2 (.inr (by simp [ptr_mem hc]))

/-- The place is in front of the first element iff that is the last node that the search has passed,
on its left. -/
theorem before_eq_nil_iff {a : T} (hnodup : (before (f :: k) ++ after (f :: k)).Nodup)
    (ha : (before (f :: k) ++ after (f :: k)).head? = some a) :
    a = f.val ∧ f.side = .left ↔ before (f :: k) = [] := by
  obtain ⟨d, n, x, u⟩ := f
  cases d with
  | left =>
    rw [before, after] at hnodup ha
    rw [before]
    cases hk : k.before with
    | nil =>
      rw [hk] at ha
      exact iff_of_true ⟨(Option.some.inj ha).symm, rfl⟩ rfl
    | cons y ys =>
      rw [hk] at ha hnodup
      refine iff_of_false (fun hax => ?_) (List.cons_ne_nil _ _)
      have hy : y = x := (Option.some.inj ha).trans hax.1
      exact (List.nodup_cons.1 hnodup).1 (by simp [hy])
  | right => exact iff_of_false (by simp) (by simp [before])

theorem after_eq_nil_iff {b : T} (hnodup : (before (f :: k) ++ after (f :: k)).Nodup)
    (hb : (before (f :: k) ++ after (f :: k)).getLast? = some b) :
    b = f.val ∧ f.side = .right ↔ after (f :: k) = [] := by
  obtain ⟨d, n, x, u⟩ := f
  cases d with
  | left => exact iff_of_false (by simp) (by simp [after])
  | right =>
    rw [before, after] at hnodup hb
    rw [after]
    rcases List.eq_nil_or_concat' k.after with hk | ⟨ys, y, hk⟩
    · rw [hk, List.append_nil, List.getLast?_concat] at hb
      exact iff_of_true ⟨(Option.some.inj hb).symm, rfl⟩ hk
    · rw [hk, ← List.append_assoc, List.getLast?_concat] at hb
      refine iff_of_false (fun hbx => ?_) (by simp [hk])
      have hy : y = x := (Option.some.inj hb).trans hbx.1
      rw [hk] at hnodup
      exact (List.nodup_append.1 hnodup).2.2 x (by simp) y (by simp) hy.symm

/-- The first grandparent is that of the new node. -/
theorem findFirstUnbalGP_eq (hlies : Lies m root (f :: k) (node 1 nil el nil)) (hfuel : 0 < fuel) :
    findFirstUnbalGP m fuel el = findFirstUnbalGPLoop m fuel (some el) (k.ptr none) := by
  obtain ⟨fuel, rfl⟩ := Nat.exists_eq_add_one.2 hfuel
  have hparent : (m el).parent = some f.val := (hlies.links (d := .left)).2.1
  rw [findFirstUnbalGP, hparent]
  dsimp only
  rw [hlies.frame.2.1]
  cases k <;> rfl

variable [DecidableEq T]

/-- The heights above a subtree that has grown by one level are known: if there is a node out of
balance then `Rebalance` for the grandchild below it is all that is to be done. -/
theorem findFirstUnbalGPLoop_lies {turns : Nat} (hlies : Lies s.nodes s.root (f :: k) t)
    (ht : t.ptr = some v) (hbal : t.Balanced) (hmeasured : Measured (f :: k) t.height)
    (hloose : Loose (f :: k) h) (hgrown : t.height = h + 1) (hf : h ≤ height f.sibling)
    (hturns : k.length < turns) (hfuel : k.length < fuel) :
    (findFirstUnbalGPLoop s.nodes turns (some v) (k.ptr none) = some none ∧
      Lies s.nodes s.root [] (fixup (f :: k) t)) ∨
    ∃ n s' p, findFirstUnbalGPLoop s.nodes turns (some v) (k.ptr none) = some (some n) ∧
      s.rebalance fuel n = some (s', p) ∧ Rearranged s s' ∧
      Lies s'.nodes s'.root [] (fixup (f :: k) t) := by
  induction k generalizing f t v h turns with
  | nil =>
    obtain ⟨turns, rfl⟩ := Nat.exists_eq_add_one.2 hturns.pos
    refine .inl ⟨rfl, ?_⟩
    rw [TAvlPath.fixup, fix_of_balanced (by omega) (by have := hloose.2.2.1; omega) hmeasured.1]
    exact lies_cons.1 hlies
  | cons g k ih =>
    obtain ⟨turns, rfl⟩ := Nat.exists_eq_add_one.2 hturns.pos
    have hplug : height (f.plug t) = f.info := TTreeItem.height_sided
    obtain ⟨hheight, hmeasured⟩ := hmeasured
    obtain ⟨hs, hle, hge, hloose⟩ := hloose
    have hlies' := lies_cons.1 hlies
    rw [TAvlPath.fixup, fix_of_balanced (by omega) (by omega) hheight]
    by_cases hsettled : f.info = max h (height f.sibling) + 1
    · -- above `f` nothing has changed
      rw [← hsettled] at hloose
      refine .inl ⟨findFirstUnbalGPLoop_none hlies ht hloose hmeasured hturns, ?_⟩
      rw [fixup_of_loose (by rwa [hplug]) (by rwa [hplug])]
      exact lies_plug.1 hlies'
    have hsib : height f.sibling = h := by omega
    obtain ⟨n, l, r, rfl⟩ := exists_sided .left ht
    rw [Path.ptr, findFirstUnbalGPLoop]
    by_cases hunbal : isUnbal s.nodes g.val = true
    · rw [if_pos hunbal]
      rw [hlies'.isUnbal_iff, hplug] at hunbal
      -- `f` has grown too, and the subtree gets back the height that it had
      obtain ⟨d, hgp, gp, w⟩ := g
      obtain ⟨e, hp, p, u⟩ := f
      obtain ⟨-, hgle, hgge, hgk⟩ := hloose
      obtain ⟨-, -, rfl, -, -⟩ := hbal
      rw [TTreeItem.height_sided] at hgrown hheight
      dsimp only at hunbal hheight hsib hgle hgge hgk
      have hw : height w = h := by omega
      have hfix : TAvlFrame.fix ⟨d, hgp, gp, w⟩
          (sided e hp (node (max (height l) (height r) + 1) l v r) p u) =
          arrange d e l v r p u gp w := fix_eq_arrange (by omega) (by omega)
      have hback : (arrange d e l v r p u gp w).height =
          max (max h (height u) + 1) (height w) + 1 := by
        rw [height_arrange (by omega) (by omega)]
        omega
      obtain ⟨s', hrebalance, hre, hlies₁⟩ :=
        rebalance_lies (lies_cons.1 hlies') hmeasured.2.above (Nat.lt_of_succ_lt hfuel)
      refine .inr ⟨v, s', _, rfl, hrebalance, hre, ?_⟩
      rw [TAvlPath.fixup, Frame.plug, sided, hfix,
        ← fixup_reheight k (arrange d e l v r p u gp w).height,
        fixup_of_loose (loose_reheight.2 (hback ▸ hgk)) (measured_reheight _ _)]
      exact lies_plug.1 hlies₁
    · rw [if_neg hunbal, hlies.links.2.1, hlies'.frame.2.1]
      rw [hlies'.isUnbal_iff, hplug] at hunbal
      have hf_bal : Balanced (f.plug (sided .left n l v r)) :=
        balanced_plug.2 ⟨hbal, hs, hheight, by omega, by omega⟩
      exact ih hlies' ptr_sided hf_bal (by rwa [hplug]) hloose (by omega) (by omega)
        (Nat.lt_of_succ_lt_succ hturns) (Nat.lt_of_succ_lt hfuel)

/-- What the search has passed tells on which side of the last node the place is. -/
def Turned (k : TAvlPath T) (lastLess : Option T) : Prop :=
  ∀ f ∈ k.head?, (if lastLess = some f.val then Side.left else Side.right) = f.side

/-- Nothing but its parent points to the new node. -/
theorem child_attached {c : Cell T Nat} (hne : v ≠ el) (hold : (m v).child d ≠ some el) :
    (((m.modify el fun _ => c).modify p (setChild e (some el))) v).child d = some el ↔ v = p ∧
      e = d := by
  rw [modify_apply, modify_of_ne hne]
  split
  · next hv =>
    by_cases hd : e = d
    · simp [hv, hd]
    · have hother : d = e.other := by cases d <;> cases e <;> simp_all [Side.other]
      rw [hother, child_other_setChild, ← hother]
      exact iff_of_false hold fun h => hd h.2
  · next hv => exact iff_of_false hold fun h => hv h.1

/-- The new node in its place. -/
theorem attach_lies {lastLess : Option T} (hlies : Lies s.nodes s.root k nil)
    (hel : el ∉ (k.plug nil).toList) (hturned : Turned k lastLess)
    (hends : Ends s (k.plug nil).toList) :
    ∃ s', s.attach el (k.ptr none) lastLess = some s' ∧
      Lies s'.nodes s'.root k (node 1 nil el nil) ∧
      Ends s' (k.before ++ el :: k.after) ∧ s'.tree = s.tree := by
  have hk : el ∉ k.elems := fun hmem => hel (mem_toList_plug.2 (.inl hmem))
  have hpath := hlies.disjoint.1
  have hnodup : (k.elems ++ (node 1 nil el nil).toList).Nodup :=
    List.nodup_append'.2 ⟨hpath, List.nodup_singleton el, fun v hv hmem => by
      cases List.mem_singleton.1 hmem
      exact hk hv⟩
  cases k with
  | nil =>
    refine ⟨_, rfl, ⟨rfl, ?_, hnodup⟩, ⟨rfl, rfl⟩, rfl⟩
    simp [Fits, Tree.ptr, Path.ptr]
  | cons f k =>
    have hlist : (plug (f :: k) nil).toList = before (f :: k) ++ after (f :: k) := by
      rw [toList_plug]
      simp
    have hwhole := lies_plug.1 hlies
    have hdistinct := hwhole.disjoint.2.1
    rw [hlist] at hends hdistinct
    have hval : f.val ∈ (plug (f :: k) nil).toList := mem_toList_plug.2 (.inl (val_mem (by simp)))
    obtain ⟨a, ha⟩ : ∃ a, (before (f :: k) ++ after (f :: k)).head? = some a := by
      rw [← hlist]
      exact Option.isSome_iff_exists.1 (by simpa using List.ne_nil_of_mem hval)
    obtain ⟨b, hb⟩ : ∃ b, (before (f :: k) ++ after (f :: k)).getLast? = some b := by
      rw [← hlist]
      exact Option.isSome_iff_exists.1 (by simpa using List.ne_nil_of_mem hval)
    obtain ⟨m, hm⟩ : ∃ m, m = (s.nodes.modify el fun _ => ⟨1, some f.val, none, none⟩).modify f.val
      (setChild f.side (some el)) := ⟨_, rfl⟩
    have hchild : ∀ v ∈ before (f :: k) ++ after (f :: k), ∀ d, (m v).child d = some el ↔
        v = f.val ∧ f.side = d := by
      intro v hv d
      rw [← hlist] at hv
      rw [hm]
      exact child_attached (ne_of_mem_of_not_mem hv hel) fun hc => hel (hwhole.child_mem hv hc)
    have hattach : s.attach el (ptr none (f :: k)) lastLess = some { s with
        nodes := m,
        head := some (if (m a).left = some el then el else a),
        tail := some (if (m b).right = some el then el else b) } := by
      simp only [TAvlState.attach, Path.ptr, hends.head, hends.tail, ha, hb, bind_eq_bind,
        bind_some]
      rw [hturned f rfl, hm]
      rfl
    refine ⟨_, hattach, ⟨?_, ?_, hnodup⟩, ⟨?_, ?_⟩, rfl⟩
    · rw [hm]
      exact hangs_rechild ((hangs_modify hk).2 hlies.hangs) hpath
    · show Fits id m (some f.val) (.node 1 .nil el .nil)
      rw [Fits, hm, modify_of_ne (ne_of_mem_of_not_mem hval hel).symm, modify_self]
      exact ⟨rfl, rfl, rfl, rfl, trivial, trivial⟩
    · show some (if (m a).child .left = some el then el else a) = _
      simp only [hchild a (List.mem_of_mem_head? ha), before_eq_nil_iff hdistinct ha]
      split
      · next hnil =>
        rw [hnil]
        rfl
      · next hne => rw [head?_middle hne, ha]
    · show some (if (m b).child .right = some el then el else b) = _
      simp only [hchild b (List.mem_of_getLast? hb), after_eq_nil_iff hdistinct hb]
      split
      · next hnil => rw [hnil, List.getLast?_concat]
      · next hne => rw [getLast?_middle hne, hb]

theorem attachRebal_lies {lastLess : Option T} (hlies : Lies s.nodes s.root k nil)
    (hel : el ∉ (k.plug nil).toList) (hturned : Turned k lastLess)
    (hends : Ends s (k.plug nil).toList) (hloose : k.Loose 0) (hmeasured : k.Measured 0)
    (hfuel : k.length < fuel) :
    ∃ s', s.attachRebal fuel el (k.ptr none) lastLess = some s' ∧
      Lies s'.nodes s'.root [] (k.fixup (node 1 nil el nil)) ∧ Ends s' (k.before ++ el :: k.after) ∧
      s'.tree = s.tree := by
  obtain ⟨s₁, hattach, hlies₁, hends₁, htree₁⟩ := attach_lies hlies hel hturned hends
  obtain ⟨m, hrecalc, hlies₂⟩ := recalcHeights_lies hlies₁ hmeasured.above hfuel
  have hunfold : s.attachRebal fuel el (k.ptr none) lastLess =
      (findFirstUnbalGP m fuel el).bind fun ub =>
      ub.elim (some { s₁ with nodes := m }) fun ub =>
        ({ s₁ with nodes := m }.rebalance fuel ub).map Prod.fst := by
    simp only [attachRebal, hattach, hrecalc, bind_eq_bind, bind_some]
    congr 1
    funext ub
    cases ub <;> rfl
  rw [hunfold]
  cases k with
  | nil =>
    have hparent : (m el).parent = none := (hlies₂.links (d := .left)).2.1
    refine ⟨{ s₁ with nodes := m }, ?_, hlies₂, hends₁.rearranged ⟨rfl, rfl, rfl⟩, htree₁⟩
    rw [findFirstUnbalGP, hparent]
    rfl
  | cons f k =>
    rw [findFirstUnbalGP_eq hlies₂ (Nat.zero_lt_of_lt hfuel)]
    have hlen : (reheight k (max 1 (height f.sibling) + 1)).length < fuel := by
      rw [length_reheight]
      exact Nat.lt_of_succ_lt hfuel
    have hleaf : Balanced (node 1 nil el nil) := ⟨trivial, trivial, rfl, by simp⟩
    have hmeasured₂ := measured_reheight (f :: k) 1
    have hloose₂ := (loose_reheight (n := 1)).2 hloose
    have hfixup := fixup_reheight (f :: k) 1 (node 1 nil el nil)
    rcases findFirstUnbalGPLoop_lies (s := { s₁ with nodes := m }) hlies₂ rfl hleaf hmeasured₂
      hloose₂ rfl
      (Nat.zero_le _) hlen hlen with ⟨hfind, hlies₃⟩ | ⟨n, s', p, hfind, hrebalance, hre, hlies₃⟩
    · refine ⟨{ s₁ with nodes := m }, ?_, ?_, hends₁.rearranged ⟨rfl, rfl, rfl⟩, htree₁⟩
      · rw [show findFirstUnbalGPLoop m fuel (some el) _ = _ from hfind]
        rfl
      · rwa [← hfixup]
    · refine ⟨s', ?_, ?_, hends₁.rearranged ⟨hre.tree, hre.head, hre.tail⟩, hre.tree.trans htree₁⟩
      · rw [show findFirstUnbalGPLoop m fuel (some el) _ = _ from hfind]
        show (rebalance fuel _ n).map Prod.fst = some s'
        rw [hrebalance]
        rfl
      · rwa [← hfixup]

end Attach

end Balancer
