import Balancer.Verify.RbTreeLinks

/-!
# Insertions and erasures of a red-black tree in memory
-/

namespace Balancer

open LinkedTree TRbTreeColor TRbTreeNode TRbTreeNodeBase TRbGlobal TRbTreeState TRbTreePath
  LinkedTree.Memory LinkedTree.Cell LinkedTree.Tree LinkedTree.Path
open Option (bind_eq_bind bind_some)

variable {T : Type} [DecidableEq T] {data : T} {m m' : TRbMemory T}

/-! ### The first and the last element -/

section Extreme

omit [DecidableEq T]

variable {e : Side} {c : TRbTreeColor} {a b l r t : TRbTreeNode T} {v z : T} {k : TRbTreePath T}

namespace TRbTreeNode

/-- The first or the last element. -/
def extreme (e : Side) (t : TRbTreeNode T) : Option T :=
  match e with
  | .left => t.toList.head?
  | .right => t.toList.getLast?

@[simp] theorem extreme_nil : extreme e (nil : TRbTreeNode T) = none := by
  cases e <;> rfl

theorem extreme_sided : extreme e (sided e c a v b) = (extreme e a).or (some v) := by
  cases e with
  | left => simp [extreme, sided, List.head?_append]
  | right =>
    simp only [extreme, sided, toList, List.getLast?_append, List.getLast?_cons]
    cases a.toList.getLast? <;> rfl

theorem exists_extreme (e : Side) (h : t.ptr = some v) : ∃ w, extreme e t = some w := by
  obtain ⟨c, a, b, rfl⟩ := exists_sided e h
  rw [extreme_sided]
  cases extreme e a with
  | none => exact ⟨v, rfl⟩
  | some w => exact ⟨w, rfl⟩

theorem extreme_mem (h : extreme e t = some v) : v ∈ t.toList := by
  cases e with
  | left => exact List.mem_of_head? h
  | right => exact List.mem_of_getLast? h

end TRbTreeNode

theorem extreme_plug_of_side (h : ∀ f ∈ k, f.side = e) (t : TRbTreeNode T) :
    extreme e (k.plug t) = (extreme e t).or (k.head?.map Frame.val) := by
  induction k generalizing t with
  | nil => simp [plug]
  | cons f k ih =>
    obtain ⟨d, c, w, s⟩ := f
    obtain rfl : d = e := h _ List.mem_cons_self
    rw [plug, ih (List.forall_mem_cons.1 h).2, Frame.plug, extreme_sided]
    simp

/-- Either the place is the outermost one on the side `e`, or the outermost element is around the
place. -/
theorem extreme_plug (e : Side) (k : TRbTreePath T) :
    (∀ f ∈ k, f.side = e) ∨ ∃ v ∈ k.elems, ∀ t, extreme e (k.plug t) = some v := by
  induction k with
  | nil => exact .inl (by simp)
  | cons f k ih =>
    obtain ⟨d, c, w, s⟩ := f
    rcases ih with hall | ⟨v, hv, heq⟩
    · rcases Side.eq_or_eq_other e d with rfl | rfl
      · exact .inl (by simpa using hall)
      · refine .inr ⟨(extreme e s).getD w, ?_, fun t => ?_⟩
        · rw [mem_elems_cons]
          cases hs : extreme e s with
          | none => exact .inl rfl
          | some u => exact .inr (.inl (extreme_mem hs))
        · rw [plug_other, extreme_plug_of_side hall, extreme_sided]
          cases extreme e s <;> rfl
    · exact .inr ⟨v, mem_elems_cons.2 (.inr (.inr hv)), fun t => heq _⟩

theorem exists_near_far (d e : Side) (c : TRbTreeColor) (z : T) (s : TRbTreeNode T) :
    ∃ near far, sided d c nil z s = sided e c near z far ∧
      (near = nil ∧ s = far ∨ far = nil ∧ s = near) := by
  rcases Side.eq_or_eq_other e d with rfl | rfl
  · exact ⟨nil, s, rfl, .inl ⟨rfl, rfl⟩⟩
  · exact ⟨s, nil, sided_other e, .inr ⟨rfl, rfl⟩⟩

theorem toList_down_perm (cy : TRbTreeColor) (y : T) (x : TRbTreeNode T) (down : TRbTreePath T) :
    (down.plug (node cy nil y x)).toList.Perm (y :: (down.plug x).toList) := by
  rw [toList_plug, toList_plug, List.append_assoc, List.append_assoc]
  exact List.perm_middle

theorem plug_minimumNode (c : TRbTreeColor) (l : TRbTreeNode T) (v : T) (r : TRbTreeNode T) :
    plug (minimumNode c l v r).1
      (node (minimumNode c l v r).2.1 nil (minimumNode c l v r).2.2.1 (minimumNode c l v r).2.2.2) =
        node c l v r := by
  induction l generalizing c v r with
  | nil => rfl
  | node c' l' v' r' ih _ =>
    rw [minimumNode, plug_append, ih]
    rfl

theorem side_minimumNode (c : TRbTreeColor) (l : TRbTreeNode T) (v : T) (r : TRbTreeNode T) :
    ∀ f ∈ (minimumNode c l v r).1, f.side = .left := by
  induction l generalizing c v r with
  | nil => simp [minimumNode]
  | node c' l' v' r' ih _ =>
    intro f hf
    rw [minimumNode, List.mem_append, List.mem_singleton] at hf
    rcases hf with hf | rfl
    · exact ih _ _ _ f hf
    · rfl

/-- A node with two children is neither the first nor the last one. -/
theorem extreme_two (hl : l.toList ≠ []) (hr : r.toList ≠ [])
    (ht : t.toList = k.before ++ (l.toList ++ r.toList) ++ k.after) :
    extreme e t = extreme e (k.plug (node c l z r)) := by
  cases e with
  | left =>
    obtain ⟨u, hu⟩ : ∃ u, l.toList.head? = some u := ⟨_, List.head?_eq_some_head hl⟩
    simp [extreme, ht, toList_plug, toList, List.head?_append, hu]
  | right =>
    obtain ⟨u, hu⟩ : ∃ u, r.toList.getLast? = some u := ⟨_, List.getLast?_eq_some_getLast hr⟩
    simp [extreme, ht, toList_plug, toList, List.getLast?_append, List.getLast?_cons, hu]

theorem extremeNode_eq {fuel : Nat} (e : Side) (h : Placed data m (k.plug t)) (hv : t.ptr = some v)
    (hfuel : t.toList.length ≤ fuel) : extremeNode e m fuel v = extreme e t := by
  induction fuel generalizing k t v with
  | zero =>
    have hmem := ptr_mem hv
    rw [List.length_eq_zero_iff.1 (Nat.le_zero.1 hfuel)] at hmem
    cases hmem
  | succ fuel ih =>
    obtain ⟨c, a, b, rfl⟩ := exists_sided e hv
    rw [extremeNode, h.links.2.2.1, extreme_sided]
    cases ha : a.ptr with
    | none =>
      rw [ptr_eq_none.1 ha, extreme_nil]
      rfl
    | some w =>
      rw [length_toList_sided] at hfuel
      show extremeNode e m fuel w = _
      obtain ⟨u, hu⟩ := exists_extreme e ha
      rw [ih (k := ⟨e, c, v, b⟩ :: k) h ha (by omega), hu]
      rfl

/-- The new element is the outermost one on the side `e` if its parent was and it hangs on that
side. -/
theorem extreme_linked {f : TRbTreeFrame T} (e : Side) (val : T)
    (h : Placed data m (plug (f :: k) nil)) :
    (f.side = e ∧ extreme e (plug (f :: k) nil) = some f.val ∧
      extreme e (plug (f :: k) (node black nil val nil)) = some val) ∨
    ((f.side = e → extreme e (plug (f :: k) nil) ≠ some f.val) ∧
      extreme e (plug (f :: k) (node black nil val nil)) =
        extreme e (plug (f :: k) nil)) := by
  obtain ⟨d, c, w, s⟩ := f
  have hnew : extreme e (node black nil val nil) = some val := by cases e <;> rfl
  rcases extreme_plug e k with hall | ⟨v, hv, heq⟩
  · rcases Side.eq_or_eq_other e d with rfl | rfl
    · have hall' : ∀ f ∈ (⟨d, c, w, s⟩ : TRbTreeFrame T) :: k, f.side = d := by simpa using hall
      refine .inl ⟨rfl, ?_, ?_⟩
      · rw [extreme_plug_of_side hall', extreme_nil]
        rfl
      · rw [extreme_plug_of_side hall', hnew]
        rfl
    · have hne : e.other ≠ e := by cases e <;> decide
      refine .inr ⟨fun heq => absurd heq hne, ?_⟩
      rw [plug_other, plug_other, extreme_plug_of_side hall, extreme_plug_of_side hall,
        extreme_sided, extreme_sided]
  · refine .inr ⟨fun _ hw => ?_, (heq _).trans (heq _).symm⟩
    have hnodup := (List.nodup_cons.1 h.focus.disjoint.1).1
    have hvw : some v = some w := (heq _).symm.trans hw
    exact hnodup (List.mem_append_right _ (Option.some.inj hvw ▸ hv))

end Extreme

/-! ### Taking a node out -/

section Unlink

variable {d e : Side} {c : TRbTreeColor} {l r s t t' : TRbTreeNode T} {z : T} {q : Option T}
  {k : TRbTreePath T}

/-- `t` has become `t'` without the order being kept; `Children_` is not written to. -/
structure Unlinked (data : T) (m : TRbMemory T) (t : TRbTreeNode T) (m' : TRbMemory T)
    (t' : TRbTreeNode T) : Prop where
  placed : Placed data m' t'
  frame : ∀ v, v ∉ t.toList → v ≠ data → m' v = m v
  children : ∀ v, (m' v).info.children = (m v).info.children

/-- A node with one child at most is replaced by that. -/
theorem replace_unlinked (h : Placed data m (k.plug (sided d c nil z s))) :
    ∃ m', relinkParent data .left (m.modify? s.ptr (setParent (m z).parent)) z s.ptr = some m' ∧
      Unlinked data m (k.plug (sided d c nil z s)) m' (k.plug s) ∧ m' z = m z ∧
      ∀ e, (m' data).child e = (m data).child e := by
  have hat := h.focus
  have hparent := h.links.2.1
  have hdpath := h.notMem_path
  have hdtree := h.notMem_tree
  obtain ⟨hpath, htree, hdisj⟩ := hat.disjoint
  simp only [nodup_sided, List.disjoint_left, not_or, mem_toList_sided]
    at htree hdisj hdtree
  obtain ⟨-, hzs, -, hsnodup, -⟩ := htree
  obtain ⟨hdz, -, hds⟩ := hdtree
  have hzp : z ∉ k.elems := fun hmem => (hdisj hmem).1 rfl
  obtain ⟨-, -, -, -, -, hfits⟩ := fits_sided.1 hat.fits
  have hhangs := hat.hangs
  rw [ptr_sided] at hhangs
  have hnodup : (k.elems ++ s.toList).Nodup := by
    rw [List.nodup_append']
    exact ⟨hpath, hsnodup, fun v hv => (hdisj hv).2.2⟩
  have hptr : ∀ v, v ∉ s.toList → m.modify? s.ptr (setParent (m z).parent) v = m v := fun v hv =>
    modify?_of_ne fun heq => hv (ptr_mem heq)
  have hplaced := at_relinked hhangs hfits hnodup hdpath hds
  rw [k.ptr_eq, ← hparent] at hplaced
  generalize hm₁ : m.modify? s.ptr (setParent (m z).parent) = m₁ at *
  have hhangs₁ : Hangs TRbNodeInfo.color m₁ (some data) (m₁ data).parent k (some z) := by
    rw [hptr data hds, ← hm₁, hangs_modify? fun v hv hmem => (hdisj hmem).2.2 (ptr_mem hv)]
    exact hhangs
  have hparent₁ : (m₁ z).parent = k.ptr (some data) := by
    rw [hptr z hzs, hparent, k.ptr_eq]
  refine ⟨relinked data s.ptr m₁ k, relinkParent_eq .left s.ptr hhangs₁ hzp hparent₁,
    ⟨.of_focus hplaced ?_, ?_, ?_⟩, ?_, ?_⟩
  · rw [mem_toList_plug]
    exact fun hmem => hmem.elim hdpath hds
  · intro v hv hvdata
    simp only [mem_toList_plug, mem_toList_sided, not_or] at hv
    obtain ⟨hvp, -, -, hvs⟩ := hv
    rw [relinked_of_ne _ hvp hvdata, hptr v hvs]
  · intro v
    rw [info_relinked, ← hm₁, info_modify?_setParent]
  · rw [relinked_of_ne _ hzp (Ne.symm hdz), hptr z hzs]
  · intro e
    rw [relinked_data _ _ hdpath, hptr data hds]

/-- The outermost element once `z` is gone, which has one child at most. -/
theorem extreme_cut {near far : TRbTreeNode T} (hzp : z ∉ k.elems) (hzn : z ∉ near.toList)
    (hs : near = nil ∧ s = far ∨ far = nil ∧ s = near) :
    extreme e (k.plug s) =
      if extreme e (k.plug (sided e c near z far)) = some z then
        (extreme e far).or (k.head?.map Frame.val)
      else extreme e (k.plug (sided e c near z far)) := by
  rcases extreme_plug e k with hall | ⟨v, hv, heq⟩
  · rw [extreme_plug_of_side hall, extreme_plug_of_side hall, extreme_sided]
    cases hnear : extreme e near with
    | none =>
      have hsame : extreme e s = extreme e far := by
        rcases hs with ⟨-, rfl⟩ | ⟨rfl, rfl⟩
        · rfl
        · rw [hnear, extreme_nil]
      simp [hsame]
    | some u =>
      have hne : u ≠ z := fun h => hzn (h ▸ extreme_mem hnear)
      have hsame : extreme e s = some u := by
        rcases hs with ⟨rfl, -⟩ | ⟨-, rfl⟩
        · simp at hnear
        · exact hnear
      simp [hsame, hne]
  · have hne : v ≠ z := fun h => hzp (h ▸ hv)
    simp [heq, hne]

theorem Placed.setChild_data (h : Placed data m t) (d : Side) (p : Option T) :
    Placed data (m.modify data (setChild d p)) t := by
  refine ⟨⟨?_, ?_, h.root.nodup⟩, h.notMem⟩
  · rw [modify_self, parent_setChild]
    exact h.root.hangs
  · rw [fits_modify h.notMem]
    exact h.root.fits

/-- `leftmost` and `rightmost` go to the outermost nodes that are left. -/
theorem relinkExtreme_eq {near far : TRbTreeNode T} {fuel : Nat} (h : Placed data m (k.plug s))
    (hzp : z ∉ k.elems) (hzn : z ∉ near.toList) (hs : near = nil ∧ s = far ∨ far = nil ∧ s = near)
    (hparent : (m z).parent = some (k.parent data)) (hfar : (m z).child e.other = far.ptr)
    (hdata : (m data).child e = some ((extreme e (k.plug (sided e c near z far))).getD data))
    (hz : z ≠ data) (hfuel : s.toList.length ≤ fuel) :
    relinkExtreme data e fuel m z s.ptr =
      some (m.modify data (setChild e (some ((extreme e (k.plug s)).getD data)))) := by
  have hcut := extreme_cut (e := e) (c := c) hzp hzn hs
  rw [relinkExtreme, hdata]
  by_cases hex : extreme e (k.plug (sided e c near z far)) = some z
  · rw [if_pos hex] at hcut
    rw [hex, if_pos (by rfl), hfar]
    cases hptr : far.ptr with
    | none =>
      rw [ptr_eq_none.1 hptr, extreme_nil] at hcut
      rw [hcut, hparent]
      cases k <;> rfl
    | some u =>
      obtain rfl : s = far := by
        rcases hs with ⟨-, hs⟩ | ⟨rfl, -⟩
        · exact hs
        · cases hptr
      obtain ⟨w, hw⟩ := exists_extreme e hptr
      rw [hw] at hcut
      simp only [hptr, bind_eq_bind, bind_some, extremeNode_eq e h hptr hfuel, hw, hcut,
        Option.some_or, Option.getD_some]
  · rw [if_neg hex] at hcut
    have hne : (extreme e (k.plug (sided e c near z far))).getD data ≠ z := by
      cases hv : extreme e (k.plug (sided e c near z far)) with
      | none => exact hz.symm
      | some v => exact fun heq => hex (hv.trans (congrArg some heq))
    rw [if_neg (by simpa using hne), hcut, ← hdata, modify_eq_self (setChild_child ..)]

/-- `leftmost` and `rightmost` are right for the tree `t`. -/
def Headed (data : T) (m : TRbMemory T) (t : TRbTreeNode T) : Prop :=
  ∀ e : Side, (m data).child e = some ((extreme e t).getD data)

theorem unlinkOne_spec {fuel : Nat} (h : Placed data m (k.plug (sided d c nil z s)))
    (hheaded : Headed data m (k.plug (sided d c nil z s))) (hfuel : s.toList.length ≤ fuel) :
    ∃ m', unlinkOne data fuel m z s.ptr = some ⟨m', s.ptr, some (k.parent data), c⟩ ∧
      Unlinked data m (k.plug (sided d c nil z s)) m' (k.plug s) ∧ Headed data m' (k.plug s) := by
  obtain ⟨hcolor, hparent, -⟩ := h.links
  obtain ⟨m₁, hrelink, h₁, hz₁, hheader₁⟩ := replace_unlinked h
  rw [hparent] at hrelink
  have hat := h.focus
  have hzdata : z ≠ data := fun heq => h.notMem_tree (by simp [heq])
  have hzp : z ∉ k.elems := fun hmem => hat.disjoint.2.2 hmem (by simp)
  have hzs : z ∉ s.toList := (nodup_sided.1 hat.disjoint.2.1).2.1
  -- both pointers of the header, one after the other
  have hstep : ∀ e m₂, Placed data m₂ (k.plug s) → m₂ z = m z →
      (m₂ data).child e = (m data).child e →
      relinkExtreme data e fuel m₂ z s.ptr =
        some (m₂.modify data (setChild e (some ((extreme e (k.plug s)).getD data)))) := by
    intro e m₂ h₂ hz₂ hdata₂
    obtain ⟨near, far, hsided, hs⟩ := exists_near_far d e c z s
    rw [hheaded e, hsided] at hdata₂
    have hfar : (m₂ z).child e.other = far.ptr := by
      rw [hz₂]
      rw [hsided] at h
      exact h.links.2.2.2
    have hzn : z ∉ near.toList := by
      rcases hs with ⟨rfl, -⟩ | ⟨-, rfl⟩
      · simp [toList]
      · exact hzs
    exact relinkExtreme_eq h₂ hzp hzn hs (by rw [hz₂, hparent]) hfar hdata₂ hzdata hfuel
  have hleft : relinkExtreme data .left fuel m₁ z s.ptr = _ :=
    hstep .left m₁ h₁.placed hz₁ (hheader₁ _)
  have h₂ := h₁.placed.setChild_data .left (some ((extreme .left (k.plug s)).getD data))
  have hright : relinkExtreme data .right fuel _ z s.ptr = _ :=
    hstep .right _ h₂ ((modify_of_ne hzdata).trans hz₁) (by
      rw [modify_self]
      exact (child_other_setChild ..).trans (hheader₁ _))
  refine ⟨_, ?_, ⟨h₂.setChild_data .right (some ((extreme .right (k.plug s)).getD data)), ?_, ?_⟩,
    ?_⟩
  · simp only [unlinkOne, hrelink, hleft, hright, bind_eq_bind, bind_some, hparent,
      modify_of_ne hzdata, hz₁, hcolor]
  · intro v hv hvdata
    rw [modify_of_ne hvdata, modify_of_ne hvdata, h₁.frame v hv hvdata]
  · intro v
    rw [info_modify_setChild, info_modify_setChild, h₁.children]
  · intro e
    rw [modify_self, modify_self]
    cases e <;> rfl

/-- The children of `z` are those of `y`, which has been taken out of the right one. -/
structure Joined (m : TRbMemory T) (l R : TRbTreeNode T) (y : T) (rest : TRbTreeNode T)
    (m' : TRbMemory T) : Prop where
  left : Fits TRbNodeInfo.color m' (some y) l
  right : Fits TRbNodeInfo.color m' (some y) rest
  children : (m' y).left = l.ptr ∧ (m' y).right = rest.ptr
  frame : ∀ v, v ∉ l.toList → v ∉ R.toList → m' v = m v
  info : ∀ v, (m' v).info = (m v).info

/-- A subtree is told of its new parent. -/
theorem fits_setParent {a : T} {p : Option T} (hfits : Fits TRbNodeInfo.color m q t)
    (hnodup : t.toList.Nodup) (hptr : t.ptr = some a) :
    Fits TRbNodeInfo.color (m.modify a (setParent p)) p t := by
  have hre := fits_reparent (q := p) hfits hnodup
  rwa [hptr] at hre

section Join

variable {cy : TRbTreeColor} {left right y : T} {x : TRbTreeNode T} {f : TRbTreeFrame T}

theorem joinChildren_nil (hfits : Fits TRbNodeInfo.color m q (node c l z (node cy nil y x)))
    (hnodup : (node c l z (node cy nil y x)).toList.Nodup) (hleft : l.ptr = some left) :
    ∃ m', joinChildren m z left y y = some (m', y) ∧ Joined m l (node cy nil y x) y x m' := by
  obtain ⟨hzl, hzr, hlnodup, hrnodup, hdisj⟩ := nodup_node.1 hnodup
  obtain ⟨-, hyx, -, -, -⟩ := nodup_node.1 hrnodup
  obtain ⟨-, -, hleftz, -, hl, -, -, -, hrighty, -, hx⟩ := hfits
  have hmem : left ∈ l.toList := ptr_mem hleft
  have hyl : y ∉ l.toList := fun hmem => hdisj hmem (by simp [toList])
  have hleftx : left ∉ x.toList := fun hx => hdisj hmem (by simp [toList, hx])
  have hzleft : z ≠ left := fun heq => hzl (heq ▸ hmem)
  have hyleft : y ≠ left := fun heq => hyl (heq ▸ hmem)
  refine ⟨_, if_neg (by simp), ?_, ?_, ⟨?_, ?_⟩, ?_, ?_⟩
  · rw [fits_modify hyl]
    exact fits_setParent hl hlnodup hleft
  · rw [fits_modify hyx, fits_modify hleftx]
    exact hx
  · rw [modify_self, modify_of_ne hzleft]
    exact hleftz
  · rw [modify_self, modify_of_ne hyleft]
    exact hrighty
  · intro v hvl hvr
    rw [modify_of_ne fun heq => hvr (by simp [toList, heq]),
      modify_of_ne (ne_of_mem_of_not_mem hmem hvl).symm]
  · intro v
    rw [info_modify_setChild, info_modify_setParent]

/-- The first node `y` of a subtree is replaced by its right child, in nodes that agree with those
of the subtree. -/
theorem fits_cutFirst (m₂ : TRbMemory T)
    (hfits : Fits TRbNodeInfo.color m q (plug (f :: k) (node cy nil y x)))
    (hnodup : (plug (f :: k) (node cy nil y x)).toList.Nodup) (hf : f.side = .left)
    (hm₂ : ∀ v ∈ (plug (f :: k) x).toList, m₂ v = m v) :
    Fits TRbNodeInfo.color ((m₂.modify? x.ptr (setParent (some f.val))).modify f.val
      (setChild .left x.ptr)) q (plug (f :: k) x) := by
  have hat := at_plug.2 (at_root hfits hnodup)
  have hx : Fits TRbNodeInfo.color m₂ (some y) x := by
    exact (fits_congr fun v hv => .of_eq (hm₂ v (mem_toList_plug.2 (.inr hv)))).2 hat.fits.2.2.2.2.2
  have hhangs : Hangs TRbNodeInfo.color m₂ q (plug (f :: k) (node cy nil y x)).ptr
      (f :: k) (some y) :=
    (hangs_congr fun v hv => .of_eq (hm₂ v (mem_toList_plug.2 (.inl hv)))).2 hat.hangs
  obtain ⟨hpath, htree, hdisj⟩ := hat.disjoint
  have hgraft := at_graft (g := f) hhangs hx (List.nodup_append'.2
    ⟨hpath, (nodup_node.1 htree).2.2.2.1, fun v hv hmem => hdisj hv (List.mem_cons_of_mem y hmem)⟩)
  rw [hf] at hgraft
  exact (at_plug.1 hgraft).fits

theorem joinChildren_cons
    (hfits : Fits TRbNodeInfo.color m q (node c l z (plug (f :: k) (node cy nil y x))))
    (hnodup : (node c l z (plug (f :: k) (node cy nil y x))).toList.Nodup) (hf : f.side = .left)
    (hleft : l.ptr = some left) (hright : (plug (f :: k) (node cy nil y x)).ptr = some right) :
    ∃ m', joinChildren m z left right y = some (m', f.val) ∧
      Joined m l (plug (f :: k) (node cy nil y x)) y (plug (f :: k) x) m' := by
  obtain ⟨hzl, hzr, hlnodup, hrnodup, hdisj⟩ := nodup_node.1 hnodup
  obtain ⟨-, -, hleftz, hrightz, hl, hr⟩ := hfits
  obtain ⟨-, hparenty, -, hrighty, -⟩ := (at_plug.2 (at_root hr hrnodup)).fits
  have hcut := fun m₂ => fits_cutFirst m₂ hr hrnodup hf
  have hperm := toList_down_perm cy y x (f :: k)
  have hptr : (plug (f :: k) x).ptr = some right := by
    rw [← hright, ptr_plug_cons f k x]
  have hmem : left ∈ l.toList := ptr_mem hleft
  have hrightmem := ptr_mem hptr
  have hfval : f.val ∈ (plug (f :: k) x).toList :=
    mem_toList_plug.2 (.inl (mem_elems_cons.2 (.inl rfl)))
  have hxmem : ∀ v ∈ x.toList, v ∈ (plug (f :: k) x).toList := fun v hv =>
    mem_toList_plug.2 (.inr hv)
  -- from here on what is left of the right subtree is any tree that has these three
  generalize plug (f :: k) x = rest at *
  rw [hperm.nodup_iff, List.nodup_cons] at hrnodup
  simp only [List.disjoint_left, hperm.mem_iff, List.mem_cons, not_or] at hdisj hzr
  obtain ⟨hyrest, hrestnodup⟩ := hrnodup
  obtain ⟨hzy, hzrest⟩ := hzr
  have hyl : y ∉ l.toList := fun hmem => (hdisj hmem).1 rfl
  have hyright : y ≠ right := (ne_of_mem_of_not_mem hrightmem hyrest).symm
  have hyf : y ≠ f.val := (ne_of_mem_of_not_mem hfval hyrest).symm
  have hzleft : z ≠ left := (ne_of_mem_of_not_mem hmem hzl).symm
  -- the left subtree has its new parent, and `y` its new left child
  generalize hm₂ : (m.modify left (setParent (some y))).modify y (setChild .left l.ptr) = m₂
  have hy₂ : m₂ y = setChild .left l.ptr (m y) := by
    rw [← hm₂, modify_self, modify_of_ne (ne_of_mem_of_not_mem hmem hyl).symm]
  have hl₂ : Fits TRbNodeInfo.color m₂ (some y) l := by
    rw [← hm₂, fits_modify hyl]
    exact fits_setParent hl hlnodup hleft
  have hother₂ : ∀ v, v ∉ l.toList → v ≠ y → m₂ v = m v := by
    intro v hvl hvy
    rw [← hm₂, modify_of_ne hvy, modify_of_ne (ne_of_mem_of_not_mem hmem hvl).symm]
  -- the right child of `y` takes its place
  have hrest₄ :=
    hcut m₂ fun v hv => hother₂ v (fun hvl => (hdisj hvl).2 hv) (ne_of_mem_of_not_mem hv hyrest)
  generalize hm₄ : (m₂.modify? x.ptr (setParent (some f.val))).modify f.val
    (setChild .left x.ptr) = m₄ at hrest₄
  have hother₄ : ∀ v, v ∉ rest.toList → m₄ v = m₂ v := by
    intro v hv
    rw [← hm₄, modify_of_ne (ne_of_mem_of_not_mem hfval hv).symm,
      modify?_of_ne fun heq => hv (hxmem v (ptr_mem heq))]
  refine ⟨(m₄.modify y (setChild .right (some right))).modify right (setParent (some y)), ?_, ?_,
    ?_, ⟨?_, ?_⟩, ?_, ?_⟩
  · have hparent : (m y).parent = some f.val := hparenty
    have hxptr : (m y).right = x.ptr := hrighty
    have hz₄ : m₄ z = m z := (hother₄ z hzrest).trans (hother₂ z hzl hzy)
    simp only [joinChildren, modify_of_ne hzleft, hleftz, hm₂, if_pos hyright, hy₂, parent_setChild,
      hparent, hxptr, bind_eq_bind, bind_some, hm₄, hz₄, hrightz, hright]
  · rw [fits_modify fun hmem => (hdisj hmem).2 hrightmem, fits_modify hyl]
    exact (fits_congr fun v hv => .of_eq (hother₄ v (hdisj hv).2)).2 hl₂
  · exact fits_setParent ((fits_modify hyrest).2 hrest₄) hrestnodup hptr
  · rw [modify_of_ne hyright, modify_self, hother₄ y hyrest, hy₂]
    rfl
  · rw [modify_of_ne hyright, modify_self, hptr]
    rfl
  · intro v hvl hvR
    rw [hperm.mem_iff, List.mem_cons, not_or] at hvR
    rw [modify_of_ne (ne_of_mem_of_not_mem hrightmem hvR.2).symm, modify_of_ne hvR.1,
      hother₄ v hvR.2, hother₂ v hvl hvR.1]
  · intro v
    simp [← hm₄, ← hm₂]

end Join

section Two

variable {cy : TRbTreeColor} {left right y : T} {x : TRbTreeNode T} {down : TRbTreePath T}

theorem joinChildren_joined
    (hfits : Fits TRbNodeInfo.color m q (node c l z (down.plug (node cy nil y x))))
    (hnodup : (node c l z (down.plug (node cy nil y x))).toList.Nodup)
    (hdown : ∀ f ∈ down, f.side = .left) (hleft : l.ptr = some left)
    (hright : (down.plug (node cy nil y x)).ptr = some right) :
    ∃ m', joinChildren m z left right y = some (m', down.parent y) ∧
      Joined m l (down.plug (node cy nil y x)) y (down.plug x) m' := by
  cases down with
  | nil =>
    cases hright
    exact joinChildren_nil hfits hnodup hleft
  | cons f down => exact joinChildren_cons hfits hnodup (hdown f List.mem_cons_self) hleft hright

section Promoted

variable {m₁ : TRbMemory T} {R rest : TRbTreeNode T}

/-- What `unlinkTwo` writes once the children are joined: `y` stands where `z` stood, and they
change colors. -/
def promoted (data : T) (m : TRbMemory T) (k : TRbTreePath T) (c cy : TRbTreeColor) (y z : T) :
    TRbMemory T :=
  (((relinked data (some y) m k).modify y (setParent (some (k.parent data)))).modify y
    (TRbTreeNodeBase.setColor c)).modify z (TRbTreeNodeBase.setColor cy)

theorem promoted_of_ne {v : T} (hvk : v ∉ k.elems) (hdata : v ≠ data) (hvy : v ≠ y) (hvz : v ≠ z) :
    promoted data m k c cy y z v = m v := by
  simp only [promoted, modify_of_ne hvz, modify_of_ne hvy, relinked_of_ne _ hvk hdata]

theorem promoted_data (hdata : data ∉ k.elems) (hy : data ≠ y) (hz : data ≠ z) (e : Side) :
    (promoted data m k c cy y z data).child e = (m data).child e := by
  simp only [promoted, modify_of_ne hz, modify_of_ne hy, relinked_data _ _ hdata]

omit [DecidableEq T] in
/-- The nodes around the place of `z`, its children, `y` and the header are all different. -/
theorem nodup_joined (h : Placed data m (k.plug (node c l z R)))
    (hperm : R.toList.Perm (y :: rest.toList)) :
    (data :: z :: y :: (k.elems ++ (l.toList ++ rest.toList))).Nodup := by
  obtain ⟨hpath, htree, hdisj⟩ := h.focus.disjoint
  have hdpath := h.notMem_path
  have hdtree := h.notMem_tree
  obtain ⟨hzl, hzr, hlnodup, hrnodup, hlr⟩ := nodup_node.1 htree
  rw [hperm.nodup_iff] at hrnodup
  simp only [List.disjoint_left, toList, List.mem_append, List.mem_cons, not_or, hperm.mem_iff]
    at hdisj hdtree hlr hzr
  grind

omit [DecidableEq T] in
theorem Joined.apart {v : T} (hjoined : Joined m l R y rest m₁)
    (hperm : R.toList.Perm (y :: rest.toList)) (hvl : v ∉ l.toList) (hvy : v ≠ y)
    (hvr : v ∉ rest.toList) : m₁ v = m v :=
  hjoined.frame v hvl (by simp [hperm.mem_iff, hvy, hvr])

omit [DecidableEq T] in
theorem Joined.hangs (hjoined : Joined m l R y rest m₁) (h : Placed data m (k.plug (node c l z R)))
    (hperm : R.toList.Perm (y :: rest.toList)) :
    Hangs TRbNodeInfo.color m₁ (some data) (m₁ data).parent k (some z) := by
  have hnodup := nodup_joined h hperm
  have hsame : ∀ v, v = data ∨ v ∈ k.elems → m₁ v = m v := by
    intro v hv
    exact hjoined.apart hperm (by grind) (by grind) (by grind)
  rw [hsame data (.inl rfl), hangs_congr fun v hv => .of_eq (hsame v (.inr hv))]
  exact h.focus.hangs

/-- `y` in the place of `z`, with the children joined. -/
theorem Joined.unlinked (hjoined : Joined m l R y rest m₁)
    (h : Placed data m (k.plug (node c l z R))) (hperm : R.toList.Perm (y :: rest.toList)) :
    Unlinked data m (k.plug (node c l z R)) (promoted data m₁ k c cy y z)
      (k.plug (node c l y rest)) := by
  have hnodup := nodup_joined h hperm
  simp only [List.nodup_cons, List.mem_cons, List.mem_append, not_or, List.nodup_append',
    List.disjoint_left] at hnodup
  obtain ⟨⟨hdz, hdy, hdp, hdl, hdr⟩, ⟨hzy, hzp, hzl, hzr⟩, ⟨hyp, hyl, hyr⟩, hpath,
      ⟨hlnodup, hrnodup, hlr⟩, hpdisj⟩ :=
    hnodup
  have hy : promoted data m₁ k c cy y z y =
      TRbTreeNodeBase.setColor c (setParent (some (k.parent data)) (m₁ y)) := by
    rw [promoted, modify_of_ne (Ne.symm hzy), modify_self, modify_self,
      relinked_of_ne _ hyp (Ne.symm hdy)]
  have hkeep : ∀ v, v ∈ l.toList ∨ v ∈ rest.toList → promoted data m₁ k c cy y z v = m₁ v := by
    intro v hv
    exact promoted_of_ne (by grind) (by grind) (by grind) (by grind)
  refine ⟨.of_focus ⟨?_, ⟨?_, ?_, ?_, ?_, ?_, ?_⟩, ?_⟩ ?_, ?_, ?_⟩
  · rw [promoted, hangs_modify hzp, hangs_modify hyp, hangs_modify hyp, modify_of_ne hdz,
      modify_of_ne hdy, modify_of_ne hdy]
    exact hangs_relinked (some y) (hjoined.hangs h hperm) hpath hdp
  · rw [hy]
    rfl
  · rw [hy, k.ptr_eq]
    rfl
  · rw [hy]
    exact hjoined.children.1
  · rw [hy]
    exact hjoined.children.2
  · exact (fits_congr fun v hv => .of_eq (hkeep v (.inl hv))).2 hjoined.left
  · exact (fits_congr fun v hv => .of_eq (hkeep v (.inr hv))).2 hjoined.right
  · rw [List.nodup_append', nodup_node]
    refine ⟨hpath, ⟨hyl, hyr, hlnodup, hrnodup, fun v => @hlr v⟩, fun v hv => ?_⟩
    simp [toList, hpdisj hv, ne_of_mem_of_not_mem hv hyp]
  · simp [mem_toList_plug, toList, hdp, hdl, hdy, hdr]
  · intro v hv hvdata
    rw [mem_toList_plug] at hv
    simp only [toList, List.mem_append, List.mem_cons, hperm.mem_iff, not_or] at hv
    obtain ⟨hvp, hvl, hvz, hvy, hvr⟩ := hv
    rw [promoted_of_ne hvp hvdata hvy hvz, hjoined.apart hperm hvl hvy hvr]
  · intro v
    rw [promoted, children_modify_setColor, children_modify_setColor,
      info_modify_setParent, info_relinked, hjoined.info]

end Promoted

theorem unlinkTwo_spec {fuel : Nat}
    (h : Placed data m (k.plug (node c l z (down.plug (node cy nil y x)))))
    (hdown : ∀ f ∈ down, f.side = .left) (hleft : l.ptr = some left)
    (hright : (down.plug (node cy nil y x)).ptr = some right)
    (hfuel : (down.plug (node cy nil y x)).toList.length ≤ fuel) :
    ∃ m', unlinkTwo data fuel m z left right = some ⟨m', x.ptr, some (down.parent y), cy⟩ ∧
      Unlinked data m (k.plug (node c l z (down.plug (node cy nil y x)))) m'
        (k.plug (node c l y (down.plug x))) ∧
      ∀ e, (m' data).child e = (m data).child e := by
  have hat := h.focus
  have hperm := toList_down_perm cy y x down
  obtain ⟨m₁, hjoin, hjoined⟩ := joinChildren_joined hat.fits hat.disjoint.2.1 hdown hleft hright
  have hnodup := nodup_joined h hperm
  simp only [List.nodup_cons, List.mem_cons, List.mem_append, not_or] at hnodup
  obtain ⟨⟨hdz, hdy, hdp, hdl, hdr⟩, ⟨hzy, hzp, hzl, hzr⟩, ⟨hyp, hyl, hyr⟩, -⟩ := hnodup
  refine ⟨promoted data m₁ k c cy y z, ?_, hjoined.unlinked h hperm, fun e => ?_⟩
  · have hy : extremeNode .left m fuel right = some y := by
      have hplaced : Placed data m (plug (⟨.right, c, z, l⟩ :: k) (down.plug (node cy nil y x))) :=
        h
      refine (extremeNode_eq .left hplaced hright hfuel).trans ?_
      rw [extreme_plug_of_side hdown]
      rfl
    obtain ⟨hcolor, hparent, -⟩ := Placed.links (d := .left) h
    have hplace : Placed data m
        (plug (down ++ ⟨.right, c, z, l⟩ :: k) (sided .left cy nil y x)) := by
      rw [plug_append]
      exact h
    obtain ⟨hcy, -, -, hxptr⟩ := hplace.links
    have hxptr : (m y).right = x.ptr := hxptr
    -- the parent of `z` is told of `y`
    have hz₁ : m₁ z = m z := hjoined.apart hperm hzl hzy hzr
    have hrelink := relinkParent_eq .left (some y) (hjoined.hangs h hperm) hzp (by
      rw [hz₁, hparent, k.ptr_eq])
    simp only [unlinkTwo, hy, hjoin, hrelink, bind_eq_bind, bind_some, modify_self,
      modify_of_ne hzy, relinked_of_ne _ hzp (Ne.symm hdz), hz₁, hparent, hcolor, info_setParent,
      relinked_of_ne _ hyp (Ne.symm hdy), hjoined.info, hcy, hxptr]
    rfl
  · rw [promoted_data hdp hdy hdz, hjoined.apart hperm hdl hdy hdr]

end Two

theorem unlink_spec {fuel : Nat} (h : Placed data m (k.plug (node c l z r)))
    (hheaded : Headed data m (k.plug (node c l z r)))
    (hfuel : (k.plug (node c l z r)).toList.length ≤ fuel) :
    ∃ m', unlink data fuel m z =
      some ⟨m', (relink k c l r).2.1.ptr, some ((relink k c l r).1.parent data),
        (relink k c l r).2.2⟩ ∧
      Unlinked data m (k.plug (node c l z r)) m' (plug (relink k c l r).1 (relink k c l r).2.1) ∧
      Headed data m' (plug (relink k c l r).1 (relink k c l r).2.1) := by
  obtain ⟨-, -, hleft, hright⟩ := Placed.links (d := .left) h
  have hleft : (m z).left = l.ptr := hleft
  have hright : (m z).right = r.ptr := hright
  rw [toList_plug, List.length_append, List.length_append, toList, List.length_append,
    List.length_cons] at hfuel
  cases l with
  | nil =>
    obtain ⟨m', hunlink, h', hheaded'⟩ :=
      unlinkOne_spec (d := .left) h hheaded (show _ ≤ fuel by omega)
    refine ⟨m', ?_, h', hheaded'⟩
    rw [unlink, hleft, hright]
    cases r <;> exact hunlink
  | node cl ll vl rl =>
    cases r with
    | nil =>
      obtain ⟨m', hunlink, h', hheaded'⟩ :=
        unlinkOne_spec (d := .right) h hheaded (show _ ≤ fuel by omega)
      refine ⟨m', ?_, h', hheaded'⟩
      rw [unlink, hleft, hright]
      exact hunlink
    | node c' l' v' r' =>
      have hmin := plug_minimumNode c' l' v' r'
      rw [← hmin] at h
      obtain ⟨m', hunlink, h', hheader'⟩ := unlinkTwo_spec h (side_minimumNode c' l' v' r')
        (show _ = some vl from rfl) (show _ = some v' by rw [hmin]; rfl)
          (show _ ≤ fuel by rw [hmin]; omega)
      rw [hmin] at h'
      have hplug : plug (relink k c (node cl ll vl rl) (node c' l' v' r')).1
          (relink k c (node cl ll vl rl) (node c' l' v' r')).2.1 =
          k.plug (node c (node cl ll vl rl) (minimumNode c' l' v' r').2.2.1
            (plug (minimumNode c' l' v' r').1 (minimumNode c' l' v' r').2.2.2)) :=
        plug_append _ _ _
      refine ⟨m', ?_, hplug ▸ h', ?_⟩
      · rw [unlink, hleft, hright]
        refine hunlink.trans ?_
        rw [relink, parent_append_cons]
      · intro e
        rw [hheader', hheaded e,
          extreme_two (by simp [toList]) (by simp [toList]) (toList_relink ..)]

/-- The tree once the node of `z` is out of it, before it is balanced again. -/
def cut (k : TRbTreePath T) (c : TRbTreeColor) (l r : TRbTreeNode T) : TRbTreeNode T :=
  plug (relink k c l r).1 (relink k c l r).2.1

/-- `RebalanceForErase`, whose counts are those of the tree without `z` as far as they were right
for it. -/
structure Erased (data : T) (m : TRbMemory T) (t cut : TRbTreeNode T) (m' : TRbMemory T)
    (t' : TRbTreeNode T) : Prop where
  placed : Placed data m' t'
  headed : Headed data m' t'
  frame : ∀ v, v ∉ t.toList → v ≠ data → m' v = m v
  counted : CountedBelow m cut → CountedBelow m' t'
  childrenOf_root : childrenOf m' t'.ptr = childrenOf m cut.ptr

omit [DecidableEq T] in
theorem Headed.moved (h : Headed data m t) (hmoved : Moved data m t m' t') : Headed data m' t' := by
  intro e
  rw [hmoved.header, h e]
  cases e <;> rw [extreme, extreme, hmoved.toList]

omit [DecidableEq T] in
theorem Unlinked.erased {s : TRbTreeNode T} (h : Unlinked data m t m' s)
    (hheaded : Headed data m' s) {m'' : TRbMemory T} (hmoved : Moved data m' s m'' t')
    (hsub : ∀ v ∈ s.toList, v ∈ t.toList) : Erased data m t s m'' t' where
  placed := hmoved.placed
  headed := hheaded.moved hmoved
  frame v hv hdata := (hmoved.frame v (mt (hsub v) hv) hdata).trans (h.frame v hv hdata)
  counted hcounted := hmoved.counted ((counted_congr fun v _ => h.children v).2 hcounted)
  childrenOf_root := hmoved.childrenOf_root.trans (childrenOf_congr fun v _ => h.children v)

theorem rebalanceForErase_erased {fuel : Nat} (h : Placed data m (k.plug (node c l z r)))
    (hheaded : Headed data m (k.plug (node c l z r)))
    (hfuel : (k.plug (node c l z r)).toList.length ≤ fuel) (ht : eraseAt k c l r = some t) :
    ∃ m', TRbGlobal.rebalanceForErase data fuel m z = some m' ∧
      Erased data m (k.plug (node c l z r)) (cut k c l r) m' t := by
  obtain ⟨m₁, hunlink, h₁, hheaded₁⟩ := unlink_spec h hheaded hfuel
  have hlist := toList_relink k c l r
  have hlist' : (k.plug (node c l z r)).toList = k.before ++ (l.toList ++ z :: r.toList) ++
      k.after :=
    toList_plug _ _
  have hsub : ∀ v ∈ (cut k c l r).toList, v ∈ (k.plug (node c l z r)).toList := by
    intro v hv
    rw [cut, hlist] at hv
    rw [hlist']
    simp only [List.mem_append, List.mem_cons] at hv ⊢
    tauto
  have hlength : (relink k c l r).1.length < fuel := by
    have hle := length_le_plug (relink k c l r).1 (relink k c l r).2.1
    rw [hlist'] at hfuel
    rw [hlist] at hle
    simp only [List.length_append, List.length_cons] at hle hfuel
    omega
  simp only [TRbGlobal.rebalanceForErase, hunlink, bind_eq_bind, bind_some]
  rw [eraseAt] at ht
  by_cases hcolor : (relink k c l r).2.2 = red
  · rw [if_pos hcolor] at ht
    cases ht
    refine ⟨m₁, by simp [hcolor], h₁.erased hheaded₁ (.refl h₁.placed) hsub⟩
  · rw [if_neg hcolor] at ht
    obtain ⟨m₂, x', hloop, h₂⟩ := eraseLoop_moved h₁.placed ht hlength
    refine ⟨_, ?_, h₁.erased hheaded₁ h₂ hsub⟩
    rw [if_pos hcolor, hloop]
    rfl

omit [DecidableEq T]

theorem ptr_cut_cons (f : TRbTreeFrame T) (k : TRbTreePath T) :
    (cut (f :: k) c l r).ptr = (plug (f :: k) (node c l z r)).ptr := by
  cases l with
  | nil => exact ptr_plug_cons f k _ _
  | node cl ll vl rl =>
    cases r with
    | nil => exact ptr_plug_cons f k _ _
    | node c' l' v' r' =>
      rw [cut, relink, plug_append]
      exact ptr_plug_cons f k _ _

/-- `Children_` of the node that takes the place of the root. -/
theorem childrenOf_cut_two (c cl : TRbTreeColor) (ll : TRbTreeNode T) (vl : T) (rl : TRbTreeNode T)
    {c' : TRbTreeColor} {l' r' : TRbTreeNode T} {v' : T} (h : CountedBelow m (node c' l' v' r')) :
    childrenOf m (cut [] c (node cl ll vl rl) (node c' l' v' r')).ptr ≤
      (node c' l' v' r').toList.length := by
  have hmin := plug_minimumNode c' l' v' r'
  have hy : CountedBelow m (node (minimumNode c' l' v' r').2.1 nil (minimumNode c' l' v' r').2.2.1
      (minimumNode c' l' v' r').2.2.2) := by
    rw [← hmin, counted_plug] at h
    exact h.2
  have hle := length_le_plug (minimumNode c' l' v' r').1 (node (minimumNode c' l' v' r').2.1 nil
    (minimumNode c' l' v' r').2.2.1 (minimumNode c' l' v' r').2.2.2)
  rw [hmin, ← hy.childrenOf_ptr] at hle
  rw [cut, relink, plug_append]
  exact le_trans (Nat.le_add_left _ _) hle

/-- The count of the root is wrong afterwards, except where the root is taken out and has one child
at most. -/
theorem Erased.eq_nil_of_childrenOf (h : Erased data m (k.plug (node c l z r)) (cut k c l r) m' t)
    (ht : t.toList.length + 1 = (k.plug (node c l z r)).toList.length)
    (hcounted : CountedBelow m (k.plug (node c l z r)))
    (hroot : childrenOf m' t.ptr = t.toList.length) : k = [] ∧ (l = nil ∨ r = nil) := by
  rw [h.childrenOf_root] at hroot
  cases k with
  | cons f k =>
    rw [ptr_cut_cons (z := z) f k, hcounted.childrenOf_ptr] at hroot
    omega
  | nil =>
    refine ⟨rfl, ?_⟩
    cases l with
    | nil => exact .inl rfl
    | node cl ll vl rl =>
      cases r with
      | nil => exact .inr rfl
      | node c' l' v' r' =>
        have hle := childrenOf_cut_two c cl ll vl rl hcounted.2.2
        simp only [plug, toList, List.length_append, List.length_cons] at ht hle hroot
        omega

theorem Erased.counted_of_root (h : Erased data m (node c l z r) (cut [] c l r) m' t)
    (hcounted : CountedBelow m (node c l z r)) (hnull : l = nil ∨ r = nil) : CountedBelow m' t := by
  refine h.counted ?_
  rcases hnull with rfl | rfl
  · exact hcounted.2.2
  · cases l with
    | nil => trivial
    | node cl ll vl rl => exact hcounted.2.1

end Unlink

/-! ### Putting an element in -/

section Insert

variable {c : TRbTreeColor} {l r t : TRbTreeNode T} {v val : T} {k : TRbTreePath T}
  {compare : T → T → Bool}

/-- Only counts have been written, and only below a place. -/
structure Recounted (data : T) (m : TRbMemory T) (k : TRbTreePath T) (t : TRbTreeNode T)
    (m' : TRbMemory T) : Prop where
  placed : Placed data m' (k.plug t)
  frame : ∀ v, v ∉ t.toList → m' v = m v

theorem setChildren_recounted (n : Nat) (h : Placed data m (k.plug (node c l v r))) :
    Recounted data m k (node c l v r) (m.modify v (setChildren n)) := by
  have hmem : v ∈ (node c l v r).toList := ptr_mem rfl
  have hdata : data ≠ v := fun heq => h.notMem_tree (heq ▸ hmem)
  refine ⟨.of_focus ?_ h.notMem, fun w hw => modify_of_ne (ne_of_mem_of_not_mem hmem hw).symm⟩
  rw [modify_of_ne hdata]
  obtain ⟨hcolor, -⟩ := Placed.links (d := .left) h
  exact at_setInfo (g := fun i => { i with children := n }) h.focus hcolor

/-- One node of the way down. -/
theorem countedAround_down {d : Side} {near far : TRbTreeNode T}
    (h : Placed data m (k.plug (sided d c near v far)))
    (hcounted : CountedBelow m (sided d c near v far))
    (haround : CountedAround m ((sided d c near v far).toList.length + 1) k) :
    CountedBelow (m.modify v (setChildren ((m v).info.children + 1))) near ∧
      CountedAround (m.modify v (setChildren ((m v).info.children + 1))) (near.toList.length + 1)
        (⟨d, c, v, far⟩ :: k) := by
  obtain ⟨-, htree, hdisj⟩ := h.focus.disjoint
  rw [nodup_sided] at htree
  obtain ⟨hvn, hvf, -⟩ := htree
  have hvp : v ∉ k.elems := fun hmem => hdisj hmem (by simp)
  have hother : ∀ w, w ≠ v →
      (m.modify v (setChildren ((m v).info.children + 1)) w).info.children = (m w).info.children :=
    fun w hw => by rw [modify_of_ne hw]
  obtain ⟨hv, hnear, hfar⟩ := counted_sided.1 hcounted
  rw [length_toList_sided] at haround
  refine ⟨(counted_congr fun w hw => hother w (ne_of_mem_of_not_mem hw hvn)).2 hnear, ?_,
    (counted_congr fun w hw => hother w (ne_of_mem_of_not_mem hw hvf)).2 hfar, ?_⟩
  · rw [modify_self, info_setChildren, hv]
    show near.toList.length + far.toList.length + 1 + 1 =
        near.toList.length + 1 + far.toList.length + 1
    omega
  · show CountedAround _ (near.toList.length + 1 + far.toList.length + 1) k
    rw [countedAround_congr fun w hw => hother w (ne_of_mem_of_not_mem hw hvp),
      Nat.add_right_comm _ 1]
    exact haround

/-- The way down of `Insert`, which counts the new element already. -/
theorem insertLoop_recounted (compare : T → T → Bool) (val : T) {fuel : Nat}
    (h : Placed data m (k.plug t)) (hfuel : t.toList.length < fuel) :
    ∃ m', insertLoop compare val fuel m (k.parent data) t.ptr =
        some (m', (insertPath compare val k t).parent data) ∧ Recounted data m k t m' ∧
      (CountedBelow m t → CountedAround m (t.toList.length + 1) k →
        CountedAround m' 1 (insertPath compare val k t)) ∧
      ∀ v ∈ t.ptr, (m' v).info.children = (m v).info.children + 1 := by
  induction t generalizing k m fuel with
  | nil =>
    obtain ⟨fuel, rfl⟩ := Nat.exists_eq_add_one.2 hfuel.pos
    exact ⟨m, rfl, ⟨h, fun _ _ => rfl⟩, fun _ hcounted => hcounted, by simp [Tree.ptr]⟩
  | node c l v r ihl ihr =>
    obtain ⟨fuel, rfl⟩ := Nat.exists_eq_add_one.2 hfuel.pos
    have hrec := setChildren_recounted ((m v).info.children + 1) h
    obtain ⟨-, -, hleft, hright⟩ := Placed.links (d := .left) hrec.placed
    have htree := h.focus.disjoint.2.1
    rw [nodup_node] at htree
    obtain ⟨hvl, hvr, -⟩ := htree
    rw [toList, List.length_append, List.length_cons] at hfuel
    have hleft : (m.modify v (setChildren ((m v).info.children + 1)) v).left = l.ptr := hleft
    have hright : (m.modify v (setChildren ((m v).info.children + 1)) v).right = r.ptr := hright
    have hloop : insertLoop compare val (fuel + 1) m (k.parent data) (some v) =
        insertLoop compare val fuel (m.modify v (setChildren ((m v).info.children + 1))) v
          (if compare val v then l.ptr else r.ptr) := by
      rw [← hleft, ← hright]
      rfl
    simp only [Tree.ptr, hloop, insertPath]
    -- the way goes on below `v`, which is not written to again
    have hroot : ∀ {m' : TRbMemory T}, m' v = m.modify v (setChildren ((m v).info.children + 1)) v →
        ∀ w ∈ some v, (m' w).info.children = (m w).info.children + 1 := by
      rintro m' hm' w ⟨⟩
      rw [hm', modify_self, info_setChildren]
    split
    · obtain ⟨m', hloop', hrec', hcount, -⟩ := ihl (k := ⟨.left, c, v, r⟩ :: k) hrec.placed
        (show _ < fuel by omega)
      refine ⟨m', hloop', ⟨hrec'.placed, fun w hw => ?_⟩, fun hcounted haround => ?_,
        hroot (hrec'.frame v hvl)⟩
      · rw [hrec'.frame w fun hmem => hw (by simp [toList, hmem]), hrec.frame w hw]
      · obtain ⟨hnear, haround'⟩ := countedAround_down (d := .left) h hcounted haround
        exact hcount hnear haround'
    · obtain ⟨m', hloop', hrec', hcount, -⟩ := ihr (k := ⟨.right, c, v, l⟩ :: k) hrec.placed
        (show _ < fuel by omega)
      refine ⟨m', hloop', ⟨hrec'.placed, fun w hw => ?_⟩, fun hcounted haround => ?_,
        hroot (hrec'.frame v hvr)⟩
      · rw [hrec'.frame w fun hmem => hw (by simp [toList, hmem]), hrec.frame w hw]
      · obtain ⟨hnear, haround'⟩ := countedAround_down (d := .right) h hcounted haround
        exact hcount hnear haround'

/-- What `InsertImpl` has linked, before the tree is balanced. -/
structure Inserted (data : T) (m : TRbMemory T) (k : TRbTreePath T) (val : T) (m' : TRbMemory T) :
    Prop where
  placed : Placed data m' (k.plug (node black nil val nil))
  headed : Headed data m' (k.plug (node black nil val nil))
  frame : ∀ v, v ∉ (k.plug (node black nil val nil)).toList → v ≠ data → m' v = m v
  info : ∀ v, (m' v).info = (m v).info

theorem linkNode_nil (hval : val ≠ data) (hcell : m val = reInitNode) :
    Inserted data m [] val (linkNode data compare m data val) := by
  generalize hm' : linkNode data compare m data val = m'
  simp only [linkNode, if_true] at hm'
  have hdata : m' data = setChild .right (some val)
      (setParent (some val) (setChild .left (some val) (m data))) := by
    rw [← hm', modify_of_ne hval.symm, modify_self, modify_self, modify_self]
  have hvalcell : m' val = setParent (some data) reInitNode := by
    simp only [← hm', modify_self, modify_of_ne hval, hcell]
  refine ⟨⟨⟨?_, ?_, ?_⟩, ?_⟩, ?_, ?_, ?_⟩
  · rw [hdata]
    rfl
  · refine ⟨?_, ?_, ?_, ?_, trivial, trivial⟩ <;> rw [hvalcell] <;> rfl
  · simp [plug, toList, elems]
  · simpa [plug, toList] using hval.symm
  · intro e
    rw [hdata]
    cases e <;> rfl
  · intro v hv hvdata
    have hvval : v ≠ val := fun heq => hv (by simp [plug, toList, heq])
    simp only [← hm', modify_of_ne hvval, modify_of_ne hvdata]
  · intro v
    simp [← hm']

theorem linkNode_cons {f : TRbTreeFrame T} (h : Placed data m (plug (f :: k) nil))
    (hheaded : Headed data m (plug (f :: k) nil)) (hval : val ∉ (plug (f :: k) nil).toList)
    (hdata : val ≠ data) (hcell : m val = reInitNode)
    (hside : f.side = if compare val f.val then .left else .right) :
    Inserted data m (f :: k) val (linkNode data compare m f.val val) := by
  have hfmem : f.val ∈ elems (f :: k) := mem_elems_cons.2 (.inl rfl)
  have hfdata : f.val ≠ data := fun heq => h.notMem_path (heq ▸ hfmem)
  have hvalp : val ∉ elems (f :: k) := fun hmem =>
    hval (mem_toList_plug.2 (.inl hmem))
  have hvalf : val ≠ f.val := fun heq => hvalp (heq ▸ hfmem)
  -- the pointer of the header is written in any case, maybe with what it is
  generalize hp : (if (m data).child f.side = some f.val then some val else (m data).child f.side) =
      p
  generalize hm' : linkNode data compare m f.val val = m'
  have hm₂ : m' = ((m.modify f.val (setChild f.side (some val))).modify data
      (setChild f.side p)).modify val (setParent (some f.val)) := by
    rw [← hm', linkNode, if_neg hfdata]
    simp only [← hside, modify_of_ne hfdata.symm]
    rw [← hp]
    split
    · rfl
    · rw [modify_eq_self (a := data)]
      rw [modify_of_ne hfdata.symm, setChild_child]
  have hdata' : m' data = setChild f.side p (m data) := by
    rw [hm₂, modify_of_ne hdata.symm, modify_self, modify_of_ne hfdata.symm]
  have hval' : m' val = setParent (some f.val) reInitNode := by
    rw [hm₂, modify_self, modify_of_ne hdata, modify_of_ne hvalf, hcell]
  refine ⟨.of_focus ⟨?_, ?_, ?_⟩ ?_, ?_, ?_, ?_⟩
  · rw [hdata', parent_setChild, hm₂, hangs_modify hvalp, hangs_modify h.notMem_path]
    exact hangs_rechild (g := f) h.focus.hangs h.focus.disjoint.1
  · refine ⟨?_, ?_, ?_, ?_, trivial, trivial⟩ <;> rw [hval'] <;> rfl
  · rw [List.nodup_append']
    refine ⟨h.focus.disjoint.1, List.nodup_singleton val, fun v hv hmem => hvalp ?_⟩
    rwa [List.mem_singleton.1 hmem] at hv
  · rw [mem_toList_plug]
    exact fun hmem => hmem.elim h.notMem_path fun hmem => hdata (List.mem_singleton.1 hmem).symm
  · intro e
    rw [hdata']
    rcases extreme_linked e val h with ⟨rfl, hold, hnew⟩ | ⟨hold, hnew⟩
    · rw [hheaded, hold, if_pos (by rfl)] at hp
      rw [hnew, child_setChild, ← hp]
      rfl
    · rw [hnew, ← hheaded e]
      rcases Side.eq_or_eq_other e f.side with heq | heq
      · have hne : (m data).child f.side ≠ some f.val := by
          rw [hheaded, heq]
          cases hex : extreme e (plug (f :: k) nil) with
          | none => simpa using hfdata.symm
          | some w => exact fun hw => hold heq (hex.trans hw)
        rw [if_neg hne] at hp
        rw [← hp, setChild_child]
      · rw [heq, child_setChild_other]
  · intro v hv hvdata
    simp only [mem_toList_plug, toList, List.nil_append, List.mem_singleton, not_or] at hv
    rw [hm₂, modify_of_ne hv.2, modify_of_ne hvdata,
      modify_of_ne (ne_of_mem_of_not_mem hfmem hv.1).symm]
  · intro v
    simp [hm₂]

omit [DecidableEq T] in
theorem side_insertPath (k : TRbTreePath T) (t : TRbTreeNode T)
    (h : ∀ f ∈ k.head?, f.side = if compare val f.val then .left else .right) :
    ∀ f ∈ (insertPath compare val k t).head?,
      f.side = if compare val f.val then .left else .right := by
  induction t generalizing k with
  | nil => exact h
  | node c l v r ihl ihr =>
    rw [insertPath]
    split
    · next hlt =>
      refine ihl _ fun f hf => ?_
      cases hf
      exact (if_pos hlt).symm
    · next hge =>
      refine ihr _ fun f hf => ?_
      cases hf
      exact (if_neg hge).symm

theorem linkNode_inserted (h : Placed data m (k.plug nil)) (hheaded : Headed data m (k.plug nil))
    (hval : val ∉ (k.plug nil).toList) (hdata : val ≠ data) (hcell : m val = reInitNode)
    (hside : ∀ f ∈ k.head?, f.side = if compare val f.val then .left else .right) :
    Inserted data m k val (linkNode data compare m (k.parent data) val) := by
  cases k with
  | nil => exact linkNode_nil hdata hcell
  | cons f k => exact linkNode_cons h hheaded hval hdata hcell (hside f rfl)

/-- `Insert` of an element that is in no tree. -/
theorem insertImpl_moved {fuel : Nat} (h : Placed data m t) (hheaded : Headed data m t)
    (hval : val ∉ t.toList) (hdata : val ≠ data) (hcell : m val = reInitNode)
    (hfuel : t.toList.length < fuel) {t' : TRbTreeNode T}
    (ht : insertAt (insertPath compare val [] t) val = some t') :
    ∃ m₁ parent m', insertLoop compare val fuel m data (m data).parent = some (m₁, parent) ∧
      insertImpl data compare fuel m₁ parent val = some m' ∧ Placed data m' t' ∧ Headed data m' t' ∧
      (∀ v, v ∉ t'.toList → v ≠ data → m' v = m v) ∧ (CountedBelow m t → CountedBelow m' t') ∧
      childrenOf m' t'.ptr = childrenOf m t.ptr + 1 := by
  obtain ⟨m₁, hloop, hrec, hcount, hroot⟩ :=
    insertLoop_recounted (k := []) compare val h hfuel
  have hplug : (insertPath compare val [] t).plug nil = t := plug_insertPath compare val [] t
  generalize hpath : insertPath compare val [] t = k at *
  have hhead : ∀ f ∈ k.head?, f.side = if compare val f.val then .left else .right := by
    rw [← hpath]
    exact side_insertPath [] t (by simp)
  have hheaded₁ : Headed data m₁ (k.plug nil) := by
    intro e
    rw [hrec.frame data h.notMem, hplug]
    exact hheaded e
  have hins := linkNode_inserted (hplug ▸ hrec.placed) hheaded₁ (hplug.symm ▸ hval) hdata
    ((hrec.frame val hval).trans hcell) hhead
  have hlength : k.length < fuel := by
    have hle := k.length_le_plug nil
    rw [hplug] at hle
    omega
  obtain ⟨m₂, hrebalance, hmoved⟩ := rebalance_moved (v := val) rfl hins.placed ht hlength
  refine ⟨m₁, _, m₂, ?_, hrebalance, hmoved.placed, hins.headed.moved hmoved, ?_, ?_, ?_⟩
  · rw [h.parent_data]
    exact hloop
  · intro v hv hvdata
    rw [hmoved.toList] at hv
    have hvt : v ∉ t.toList := by
      rw [← hplug]
      simp only [mem_toList_plug, not_or] at hv ⊢
      exact ⟨hv.1, by simp [toList]⟩
    rw [hmoved.frame v hv hvdata, hins.frame v hv hvdata, hrec.frame v hvt]
  · intro hcounted
    refine hmoved.counted (counted_plug.2 ⟨?_, ?_, trivial, trivial⟩)
    · rw [countedAround_congr fun v _ => congrArg TRbNodeInfo.children (hins.info v)]
      exact hcount hcounted trivial
    · rw [hins.info, hrec.frame val hval, hcell]
      rfl
  · rw [hmoved.childrenOf_root,
      childrenOf_congr fun v _ => congrArg TRbNodeInfo.children (hins.info v)]
    cases k with
    | nil =>
      -- the tree was empty
      rw [← show nil = t from hplug]
      show (m₁ val).info.children = 0 + 1
      rw [hrec.frame val hval, hcell]
      rfl
    | cons f k =>
      rw [ptr_plug_cons f k _ nil, hplug]
      obtain ⟨v, hv⟩ : ∃ v, t.ptr = some v := by
        rw [← hplug]
        exact exists_ptr (mem_toList_plug.2 (.inl (mem_elems_cons.2 (.inl rfl))))
      rw [hv]
      exact hroot v hv

end Insert

end Balancer
