import Balancer.Verify.RbTreeState

/-!
# Runs of a red-black tree
-/

namespace Balancer

open LinkedTree TRbTreeColor TRbTreeNode TRbTreeNodeBase TRbGlobal TRbTreeState LinkedTree.Tree

variable {T : Type} [DecidableEq T] {data : T} {m : TRbMemory T} {t : TRbTreeNode T}
  {k : TRbTreePath T}

/-! ### Iteration -/

section ForEach

omit [DecidableEq T] in
theorem right_ne {u y : T} (h : Placed data m (k.plug t)) (hu : t.ptr = some u)
    (hy : y ∉ t.toList) : (m u).right ≠ some y := by
  obtain ⟨c, l, r, rfl⟩ := exists_sided .left hu
  have hright : (m u).right = r.ptr := h.links.2.2.2
  rw [hright]
  exact fun heq => hy (by simp [ptr_mem heq])

/-- The way up of `IncrementNode`, which may turn in the header. -/
theorem climb_eq_some {fuel : Nat} {u : T} (h : Placed data m (k.plug t))
    (hheaded : Headed data m (k.plug t)) (hu : t.ptr = some u) (hfuel : k.length + 2 ≤ fuel) :
    ∃ n y, TRbGlobal.climb m fuel u (k.parent data) = some (n, y) ∧
      (if (m n).right ≠ some y then y else n) = (TRbTreeNode.climb k).getD data := by
  induction k generalizing t u fuel with
  | nil =>
    obtain ⟨fuel, rfl⟩ : ∃ n, fuel = n + 2 := ⟨fuel - 2, by rw [List.length_nil] at hfuel; omega⟩
    have hroot : (m data).parent = some u := h.parent_data.trans hu
    have hne : (m u).right ≠ some data := right_ne h hu h.notMem
    show ∃ n y, TRbGlobal.climb m (fuel + 2) u data = some (n, y) ∧ _
    by_cases hlast : (m data).right = some u
    · refine ⟨data, u, ?_, by rw [if_neg (not_not_intro hlast)]; rfl⟩
      rw [TRbGlobal.climb, if_pos hlast, hroot]
      exact if_neg hne
    · exact ⟨u, data, if_neg hlast, by rw [if_pos hne]; rfl⟩
  | cons f k ih =>
    obtain ⟨fuel, rfl⟩ : ∃ n, fuel = n + 1 := ⟨fuel - 1, by omega⟩
    rw [List.length_cons] at hfuel
    obtain ⟨d, c, v, s⟩ := f
    obtain ⟨-, hparent, hnear, hfar⟩ := Placed.links (k := k) h
    rw [hu] at hnear
    cases d with
    | left =>
      have hright : (m v).right ≠ some u := by
        rw [show (m v).right = s.ptr from hfar]
        exact h.ptr_sibling_ne hu
      have hv : v ∉ t.toList := h.focus.disjoint.2.2 (Path.mem_elems_cons.2 (.inl rfl))
      exact ⟨u, v, if_neg hright, by rw [if_pos (right_ne h hu hv)]; rfl⟩
    | right =>
      have hright : (m v).right = some u := hnear
      obtain ⟨n, y, hclimb, hresult⟩ := ih (t := sided .right c t v s) h hheaded ptr_sided
        (show _ ≤ fuel by omega)
      refine ⟨n, y, ?_, hresult⟩
      show TRbGlobal.climb m (fuel + 1) u v = _
      rw [TRbGlobal.climb, if_pos hright, hparent]
      exact hclimb

theorem incrementNode_eq {fuel : Nat} {c : TRbTreeColor} {l r : TRbTreeNode T} {v : T}
    (h : Placed data m (k.plug (node c l v r))) (hheaded : Headed data m (k.plug (node c l v r)))
    (hfuel : (k.plug (node c l v r)).toList.length + 1 ≤ fuel) :
    incrementNode fuel m v = some ((incrementAt k r).getD data) := by
  obtain ⟨-, hparent, -, hright⟩ := Placed.links (d := .left) h
  have hright : (m v).right = r.ptr := hright
  have hle := k.length_le_plug (node c l v r)
  rw [toList, List.length_append, List.length_cons] at hle
  cases r with
  | nil =>
    obtain ⟨n, y, hclimb, hresult⟩ := climb_eq_some h hheaded rfl (show _ ≤ fuel by omega)
    rw [incrementNode, hright]
    simp only [Tree.ptr, hparent, hclimb, Option.bind_eq_bind, Option.bind_some, incrementAt,
      ← hresult]
    split <;> rfl
  | node c' l' v' r' =>
    have hex := extremeNode_eq (k := ⟨.right, c, v, l⟩ :: k) .left h rfl (show _ ≤ fuel by omega)
    rw [incrementNode, hright]
    refine hex.trans ?_
    rw [incrementAt, minimum_eq, extreme]
    simp [toList]

theorem exists_place {v : T} (h : v ∈ t.toList) :
    ∃ (k : TRbTreePath T) (c : TRbTreeColor) (l r : TRbTreeNode T), k.plug (node c l v r) = t := by
  obtain ⟨⟨k, c, l, r⟩, hloc⟩ := Option.isSome_iff_exists.1 (locate_isSome [] h)
  exact ⟨k, c, l, r, (locate_some hloc).1⟩

omit [DecidableEq T] in
theorem Placed.nodup (h : Placed data m t) : t.toList.Nodup := h.root.disjoint.2.1

/-- `ForEach` from any place on. -/
theorem forEach_eq {pre post : List T} {fuel : Nat} (h : Placed data m t)
    (hheaded : Headed data m t) (hlist : t.toList = pre ++ post)
    (hfuel : t.toList.length + post.length + 2 ≤ fuel) :
    forEach data m fuel (post.head?.getD data) = some post := by
  induction post generalizing pre fuel with
  | nil =>
    obtain ⟨fuel, rfl⟩ : ∃ n, fuel = n + 1 := ⟨fuel - 1, by omega⟩
    exact if_pos rfl
  | cons v post ih =>
    obtain ⟨fuel, rfl⟩ : ∃ n, fuel = n + 1 := ⟨fuel - 1, by omega⟩
    rw [List.length_cons] at hfuel
    have hmem : v ∈ t.toList := by simp [hlist]
    have hdata : v ≠ data := fun heq => h.notMem (heq ▸ hmem)
    obtain ⟨k, c, l, r, rfl⟩ := exists_place hmem
    have hpost : post = r.toList ++ k.after := by
      have hnodup := h.nodup
      have heq : pre ++ v :: post = (k.before ++ l.toList) ++ v :: (r.toList ++ k.after) := by
        rw [← hlist, Path.toList_plug]
        simp [toList]
      rw [hlist] at hnodup
      exact (List.append_cons_inj_of_notMem (by grind) (by grind)).1 heq |>.2.2
    have hnext := incrementNode_eq h hheaded (show _ ≤ fuel by omega)
    rw [incrementAt_eq, ← hpost] at hnext
    have hrest := ih (show _ = (pre ++ [v]) ++ post by simp [hlist]) (show _ ≤ fuel by omega)
    show forEach data m (fuel + 1) v = _
    rw [forEach, if_neg hdata, hnext]
    simp only [Option.bind_eq_bind, Option.bind_some, hrest]

end ForEach

/-! ### Indices -/

section ByIndex

omit [DecidableEq T] in
theorem byIndex_eq {fuel i : Nat} {u : T} (h : Placed data m (k.plug t))
    (hcounted : CountedBelow m t) (hu : t.ptr = some u) (hi : i < t.toList.length)
    (hfuel : t.toList.length ≤ fuel) :
    byIndex m fuel u i = some (.ok t.toList[i]) := by
  induction t generalizing k u i fuel with
  | nil => cases hu
  | node c l v r ihl ihr =>
    cases hu
    obtain ⟨-, -, hleft, hright⟩ := Placed.links (d := .left) h
    have hleft : (m v).left = l.ptr := hleft
    have hright : (m v).right = r.ptr := hright
    obtain ⟨-, hl, hr⟩ := hcounted
    simp only [toList, List.length_append, List.length_cons] at hi hfuel ⊢
    obtain ⟨fuel, rfl⟩ : ∃ n, fuel = n + 1 := ⟨fuel - 1, by omega⟩
    have hrest : ∀ j (hj : j < r.toList.length + 1),
        byIndexRight m fuel v j = some (.ok ((v :: r.toList)[j])) := by
      intro j hj
      cases j with
      | zero => rfl
      | succ j =>
        rw [byIndexRight, if_neg (Nat.succ_ne_zero j).symm, hright]
        cases hw : r.ptr with
        | none =>
          rw [ptr_eq_none.1 hw] at hj
          exact absurd hj (by simp [toList])
        | some w =>
          exact ihr (k := ⟨.right, c, v, l⟩ :: k) h hr hw (Nat.lt_of_succ_lt_succ hj) (by omega)
    rw [byIndex_succ, hleft]
    cases hw : l.ptr with
    | none =>
      obtain rfl := ptr_eq_none.1 hw
      exact hrest i (by simpa [toList] using hi)
    | some w =>
      have hcount : (m w).info.children = l.toList.length := by
        have := hl.childrenOf_ptr
        rwa [hw] at this
      show (if i < (m w).info.children then _ else _) = _
      rw [hcount]
      split
      · next hlt =>
        rw [List.getElem_append_left hlt]
        exact ihl (k := ⟨.left, c, v, r⟩ :: k) h hl hw hlt (by omega)
      · next hge =>
        rw [List.getElem_append_right (by omega)]
        exact hrest (i - l.toList.length) (by omega)

end ByIndex

/-! ### States -/

section States

variable {cmp : TRbTreeCompare T} {s : TRbTreeState T} {v z : T}

/-- The state of the nodes for a tree and the elements that are not in it. -/
structure RepresentsTree (data : T) (s : TRbTreeState T) (t : TRbTree cmp) : Prop where
  placed : Placed data s.nodes t.root
  headed : Headed data s.nodes t.root
  tree : ∀ v, s.tree v = true ↔ v ∈ t.toList
  free : ∀ v, v ∉ t.toList → v ≠ data → s.nodes v = reInitNode

theorem nodes_init (data : T) :
    (TRbTreeState.init data).nodes data = ⟨⟨red, 0⟩, none, some data, some data⟩ :=
  if_pos rfl

theorem init_represents (cmp : TRbTreeCompare T) (data : T) :
    RepresentsTree data (.init data) (TRbTree.empty : TRbTree cmp) where
  placed := ⟨⟨by rw [nodes_init]; rfl, trivial, List.nodup_nil⟩, List.not_mem_nil⟩
  headed e := by
    rw [nodes_init]
    cases e <;> rfl
  tree v := by simp [TRbTreeState.init, TRbTree.empty, TRbTree.toList, toList]
  free v _ hv := if_neg hv

/-- The call leaves the counts alone: the element is in no tree, or it is the root and has one child
at most. -/
def KeepsCounts (data : T) (s : TRbTreeState T) (v : T) : Prop :=
  s.tree v = false ∨ (s.nodes data).parent = some v ∧
    ((s.nodes v).left = none ∨ (s.nodes v).right = none)

theorem exists_eraseAt (t : TRbTree cmp) (hz : z ∈ t.toList) :
    ∃ k c l r, Path.plug k (node c l z r) = t.root ∧ eraseAt k c l r = some (t.unLink z).root := by
  obtain ⟨⟨k, c, l, r⟩, hloc⟩ := Option.isSome_iff_exists.1 (locate_isSome [] hz)
  obtain ⟨root, herase, -⟩ := t.eraseImpl_spec hz
  have hroot : (t.unLink z).root = root := by
    rw [TRbTree.unLink, dif_pos hz]
    simp only [herase, Option.get_some]
  refine ⟨k, c, l, r, (locate_some hloc).1, ?_⟩
  rw [TRbTree.eraseImpl, hloc, Option.bind_some] at herase
  obtain ⟨root', hroot', heq⟩ := Option.map_eq_some_iff.1 herase
  rw [hroot, hroot']
  exact congrArg some (Prod.ext_iff.1 heq).1

theorem exists_insertAt (t : TRbTree cmp) (v : T) :
    insertAt (insertPath cmp.compare v [] (t.unLink v).root) v = some (t.insert v).root := by
  obtain ⟨p, hp, -⟩ := TRbTree.insertImpl_some _ (t.notMem_unLink v)
  have hroot : (t.insert v).root = p.1 := by simp only [TRbTree.insert, hp, Option.get_some]
  obtain ⟨root', hroot', heq⟩ := Option.map_eq_some_iff.1 hp
  rw [hroot, hroot', ← heq]

omit [DecidableEq T] in
theorem keepsCounts_iff {c : TRbTreeColor} {l r : TRbTreeNode T}
    (h : Placed data s.nodes (k.plug (node c l v r))) (htree : s.tree v = true) :
    KeepsCounts data s v ↔ k = [] ∧ (l = nil ∨ r = nil) := by
  obtain ⟨-, -, hleft, hright⟩ := Placed.links (d := .left) h
  have hleft : (s.nodes v).left = l.ptr := hleft
  have hright : (s.nodes v).right = r.ptr := hright
  have hroot : (s.nodes data).parent = some v ↔ k = [] := by
    cases k with
    | nil => exact iff_of_true h.parent_data rfl
    | cons f k => exact iff_of_false (h.parent_data_ne (ptr_mem rfl)) (List.cons_ne_nil f k)
  rw [KeepsCounts, htree, hroot, hleft, hright, ptr_eq_none, ptr_eq_none]
  simp

/-- A node that is not in the tree is written to. -/
theorem Placed.modify_of_notMem {f : Cell T TRbNodeInfo → Cell T TRbNodeInfo} (h : Placed data m t)
    (hv : v ∉ t.toList) (hdata : v ≠ data) : Placed data (m.modify v f) t := by
  refine ⟨⟨?_, ?_, h.root.nodup⟩, h.notMem⟩
  · rw [Memory.modify_of_ne hdata.symm]
    exact h.root.hangs
  · rw [fits_modify hv]
    exact h.root.fits

theorem counted_modify_of_notMem {f : Cell T TRbNodeInfo → Cell T TRbNodeInfo} (hv : v ∉ t.toList) :
    CountedBelow (m.modify v f) t ↔ CountedBelow m t :=
  counted_congr fun _ hw => by rw [Memory.modify_of_ne (ne_of_mem_of_not_mem hw hv)]

theorem unLink_represents {t : TRbTree cmp} {fuel : Nat} (h : RepresentsTree data s t) (v : T)
    (hfuel : t.toList.length ≤ fuel) :
    ∃ s', s.unLink data fuel v = some s' ∧ RepresentsTree data s' (t.unLink v) ∧
      (CountedBelow s.nodes t.root →
        (KeepsCounts data s v → CountedBelow s'.nodes (t.unLink v).root) ∧
        (childrenOf s'.nodes (t.unLink v).root.ptr = (t.unLink v).toList.length →
          KeepsCounts data s v)) := by
  have hlist := t.toList_unLink v
  by_cases hv : v ∈ t.toList
  · have htree : s.tree v = true := (h.tree v).2 hv
    have hvdata : v ≠ data := fun heq => h.placed.notMem (heq ▸ hv)
    obtain ⟨k, c, l, r, hplug, herase⟩ := exists_eraseAt t hv
    have hplaced := h.placed
    have hheaded := h.headed
    have hfuel' : t.root.toList.length ≤ fuel := hfuel
    rw [← hplug] at hplaced hheaded hfuel'
    obtain ⟨m', hexec, herased⟩ := rebalanceForErase_erased hplaced hheaded hfuel' herase
    have hv' : v ∉ (t.unLink v).root.toList := t.notMem_unLink v
    have hmem : ∀ w, w ∈ (t.unLink v).toList ↔ w ≠ v ∧ w ∈ t.toList := by
      intro w
      have hnodup : t.toList.Nodup := t.nodup
      rw [hlist, hnodup.mem_erase_iff]
    refine ⟨⟨m'.modify v fun _ => reInitNode, Function.update s.tree v false⟩, ?_, ⟨?_, ?_, ?_, ?_⟩,
      ?_⟩
    · rw [TRbTreeState.unLink, if_pos htree, hexec]
      rfl
    · exact herased.placed.modify_of_notMem (f := fun _ => reInitNode) hv' hvdata
    · intro e
      show (Memory.modify m' v _ data).child _ = _
      rw [Memory.modify_of_ne hvdata.symm]
      exact herased.headed e
    · intro w
      rw [hmem]
      by_cases hw : w = v
      · simp [hw]
      · show Function.update s.tree v false w = true ↔ _
        rw [Function.update_of_ne hw, h.tree w]
        simp [hw]
    · intro w hw hwdata
      show m'.modify v (fun _ => reInitNode) w = _
      rw [hmem, not_and] at hw
      by_cases hwv : w = v
      · rw [hwv, Memory.modify_self]
      · rw [Memory.modify_of_ne hwv, herased.frame w (hplug ▸ hw hwv) hwdata]
        exact h.free w (hw hwv) hwdata
    · intro hcounted
      rw [← hplug] at hcounted
      rw [keepsCounts_iff hplaced htree, counted_modify_of_notMem hv']
      have hlength : (t.unLink v).toList.length + 1 =
          (Path.plug k (node c l v r)).toList.length := by
        rw [hlist, hplug, List.length_erase_of_mem hv]
        exact Nat.sub_add_cancel (List.length_pos_of_mem hv)
      refine ⟨?_, fun hroot => herased.eq_nil_of_childrenOf hlength hcounted (Eq.trans ?_ hroot)⟩
      · rintro ⟨rfl, hnull⟩
        exact herased.counted_of_root hcounted hnull
      · refine childrenOf_congr fun w hw => ?_
        show (m' w).info.children = (m'.modify v (fun _ => reInitNode) w).info.children
        rw [Memory.modify_of_ne (ne_of_mem_of_not_mem (ptr_mem hw) hv')]
  · have htree : s.tree v = false := by
      rw [← Bool.not_eq_true, h.tree v]
      exact hv
    have hsame : t.unLink v = t := dif_neg hv
    refine ⟨s, by rw [TRbTreeState.unLink, htree]; rfl, by rwa [hsame], fun hcounted => ?_⟩
    rw [hsame]
    exact ⟨fun _ => hcounted, fun _ => .inl htree⟩

theorem insert_represents {t : TRbTree cmp} {fuel : Nat} (h : RepresentsTree data s t)
    (hv : v ≠ data) (hfuel : t.toList.length < fuel) :
    ∃ s', s.insert data cmp.compare fuel v = some s' ∧ RepresentsTree data s' (t.insert v) ∧
      (CountedBelow s.nodes t.root →
        (CountedBelow s'.nodes (t.insert v).root ↔ KeepsCounts data s v)) := by
  obtain ⟨s₁, hunlink, h₁, hcount₁⟩ := unLink_represents h v hfuel.le
  have hle : (t.unLink v).toList.length ≤ t.toList.length := by
    rw [t.toList_unLink]
    exact List.length_erase_le
  have hv₁ := t.notMem_unLink v
  obtain ⟨m₁, parent, m', hloop, himpl, hplaced, hheaded, hframe, hcounted, hroot⟩ :=
    insertImpl_moved
    h₁.placed h₁.headed hv₁ hv (h₁.free v hv₁ hv) (hle.trans_lt hfuel) (exists_insertAt t v)
  have hperm : (t.insert v).toList.Perm (v :: (t.unLink v).toList) := by
    rw [t.toList_unLink]
    exact t.toList_insert_perm v
  have hmem : ∀ w, w ∈ (t.insert v).toList ↔ w = v ∨ w ∈ (t.unLink v).toList := by
    intro w
    rw [hperm.mem_iff, List.mem_cons]
  refine ⟨⟨m', Function.update s₁.tree v true⟩, ?_, ⟨hplaced, hheaded, ?_, ?_⟩, ?_⟩
  · simp only [TRbTreeState.insert, hunlink, Option.bind_eq_bind, Option.bind_some, hloop, himpl]
  · intro w
    rw [hmem]
    by_cases hw : w = v
    · simp [hw]
    · show Function.update s₁.tree v true w = true ↔ _
      rw [Function.update_of_ne hw, h₁.tree w]
      simp [hw]
  · intro w hw hwdata
    refine (hframe w hw hwdata).trans ?_
    rw [hmem, not_or] at hw
    exact h₁.free w hw.2 hwdata
  · intro hs
    obtain ⟨hkeeps, hroot₁⟩ := hcount₁ hs
    refine ⟨fun hcounted' => hroot₁ ?_, fun hk => hcounted (hkeeps hk)⟩
    have hlength := hcounted'.childrenOf_ptr
    have hperm' := hperm.length_eq
    rw [List.length_cons] at hperm'
    rw [hroot, show (t.insert v).root.toList.length = _ from hperm'] at hlength
    exact Nat.succ.inj hlength

/-- A call. -/
theorem exec_represents {t : TRbTree cmp} {fuel : Nat} (h : RepresentsTree data s t)
    (op : TRbTreeOp data) (hfuel : t.toList.length < fuel) :
    ∃ s' t', op.exec cmp.compare fuel s = some s' ∧ RepresentsTree data s' (t' : TRbTree cmp) ∧
      t'.toList.Perm (op.present t.toList) ∧
      (CountedBelow s.nodes t.root →
        (CountedBelow s'.nodes t'.root ↔ KeepsCounts data s op.val)) := by
  cases op with
  | insert v =>
    obtain ⟨s', hexec, h', hcount⟩ := insert_represents h v.2 hfuel
    exact ⟨s', _, hexec, h', t.toList_insert_perm v, hcount⟩
  | erase v =>
    obtain ⟨s', hexec, h', hcount⟩ := unLink_represents h v hfuel.le
    refine ⟨s', _, hexec, h', ?_,
      fun hs => ⟨fun hcounted => (hcount hs).2 hcounted.childrenOf_ptr, (hcount hs).1⟩⟩
    rw [t.toList_unLink]
    exact List.Perm.refl _

theorem TRbTreeOp.length_present (op : TRbTreeOp data) (l : List T) :
    (op.present l).length ≤ l.length + 1 := by
  cases op with
  | insert v => exact Nat.succ_le_succ List.length_erase_le
  | erase v => exact List.length_erase_le.trans (Nat.le_succ _)

theorem TRbTreeOp.present_perm (op : TRbTreeOp data) {l l' : List T} (h : l.Perm l') :
    (op.present l).Perm (op.present l') := by
  cases op with
  | insert v => exact (h.erase _).cons _
  | erase v => exact h.erase _

end States

/-! ### Runs -/

section Runs

theorem run_represents (cmp : TRbTreeCompare T) (data : T) (ops : List (TRbTreeOp data))
    {fuel : Nat} (hfuel : ops.length ≤ fuel) :
    ∃ s t, (TRbTreeOp.system data cmp.compare fuel).run (.init data) ops = some s ∧
      RepresentsTree data s (t : TRbTree cmp) ∧
      t.toList.Perm (ops.foldl (fun l op => op.present l) []) ∧ t.toList.length ≤ ops.length := by
  induction ops using List.reverseRecOn with
  | nil => exact ⟨_, _, rfl, init_represents cmp data, .refl _, le_rfl⟩
  | append_singleton ops op ih =>
    rw [List.length_append, List.length_singleton] at hfuel ⊢
    obtain ⟨s, t, hrun, h, hperm, hle⟩ := ih (by omega)
    obtain ⟨s', t', hexec, h', hperm', -⟩ := exec_represents h op (show _ < fuel by omega)
    refine ⟨s', t', ?_, h', ?_, ?_⟩
    · rw [Runs.System.run_concat, hrun]
      exact hexec
    · rw [List.foldl_concat]
      exact hperm'.trans (op.present_perm hperm)
    · have hlength := op.length_present t.toList
      rw [hperm'.length_eq]
      omega

/-- Any calls lead to a red-black tree of the elements that are present. -/
theorem run_red_black (cmp : TRbTreeCompare T) (data : T) (ops : List (TRbTreeOp data))
    (more : Nat) :
    ∃ s t n, (TRbTreeOp.system data cmp.compare (2 * ops.length + 2 + more)).run (.init data) ops =
      some s ∧
      Placed data s.nodes t ∧ Balanced t black n ∧
      (s.nodes data).left.bind (forEach data s.nodes (2 * ops.length + 2 + more)) = some t.toList ∧
      t.toList.Perm (ops.foldl (fun l op => op.present l) []) ∧ t.toList.Pairwise cmp.NotAfter ∧
      (s.nodes data).left = some (t.toList.head?.getD data) ∧
      (s.nodes data).right = some (t.toList.getLast?.getD data) ∧
      (s.nodes data).parent = t.ptr := by
  obtain ⟨s, t, hrun, h, hperm, hle⟩ := run_represents cmp data ops
    (show _ ≤ 2 * ops.length + 2 + more by omega)
  obtain ⟨n, hn⟩ := t.balanced
  have hleft : (s.nodes data).left = some (t.toList.head?.getD data) := h.headed .left
  have hlist : t.root.toList.length ≤ ops.length := hle
  refine ⟨s, t.root, n, hrun, h.placed, hn, ?_, hperm, t.sorted, hleft, h.headed .right,
    h.placed.parent_data⟩
  rw [hleft]
  exact forEach_eq h.placed h.headed (List.nil_append _).symm (by omega)

/-- `Children_` of every node is the number of the nodes below and itself, and indices find the
elements. -/
def CountsRight (data : T) (fuel : Nat) (s : TRbTreeState T) : Prop :=
  ∃ t, Placed data s.nodes t ∧ CountedBelow s.nodes t ∧
    ∀ i (hi : i < t.toList.length), s.byIndex data fuel i = some (.ok t.toList[i])

omit [DecidableEq T] in
theorem fits_unique {p : Option T} {t t' : TRbTreeNode T} (h : Fits TRbNodeInfo.color m p t)
    (h' : Fits TRbNodeInfo.color m p t') (hptr : t.ptr = t'.ptr) : t = t' := by
  induction t generalizing p t' with
  | nil => exact (ptr_eq_none.1 hptr.symm).symm
  | node c l v r ihl ihr =>
    cases t' with
    | nil => cases hptr
    | node c' l' v' r' =>
      cases hptr
      obtain ⟨hc, -, hleft, hright, hl, hr⟩ := h
      obtain ⟨hc', -, hleft', hright', hl', hr'⟩ := h'
      rw [ihl hl hl' (hleft.symm.trans hleft'), ihr hr hr' (hright.symm.trans hright'),
        hc.symm.trans hc']

omit [DecidableEq T] in
/-- There is one tree in the nodes. -/
theorem Placed.unique {t t' : TRbTreeNode T} (h : Placed data m t) (h' : Placed data m t') :
    t = t' :=
  fits_unique h.root.fits h'.root.fits (h.parent_data.symm.trans h'.parent_data)

omit [DecidableEq T] in
theorem countsRight_iff {s : TRbTreeState T} {t : TRbTreeNode T} {fuel : Nat}
    (h : Placed data s.nodes t) (hfuel : t.toList.length ≤ fuel) :
    CountsRight data fuel s ↔ CountedBelow s.nodes t := by
  constructor
  · rintro ⟨t', h', hcounted, -⟩
    rwa [h.unique h']
  · intro hcounted
    refine ⟨t, h, hcounted, fun i hi => ?_⟩
    obtain ⟨u, hu⟩ := exists_ptr (List.getElem_mem hi)
    rw [TRbTreeState.byIndex, h.parent_data, hu]
    exact byIndex_eq (k := []) h hcounted hu hi hfuel

/-- The counts are right along a run exactly if no call takes out an element that is not the root or
has two children. -/
theorem counts_iff (cmp : TRbTreeCompare T) (data : T) (ops : List (TRbTreeOp data)) (more : Nat) :
    ((TRbTreeOp.system data cmp.compare (ops.length + 1 + more)).run (.init data) ops).isSome ∧
    ((TRbTreeOp.system data cmp.compare (ops.length + 1 + more)).Always
        (CountsRight data (ops.length + 1 + more)) (.init data) ops ↔
      (TRbTreeOp.system data cmp.compare (ops.length + 1 + more)).EachStep
        (fun s op => KeepsCounts data s op.val) (.init data) ops) := by
  obtain ⟨s, -, hrun, -⟩ := run_represents cmp data ops (show _ ≤ ops.length + 1 + more by omega)
  have hsome : ((TRbTreeOp.system data cmp.compare (ops.length + 1 + more)).run (.init data)
      ops).isSome := by
    rw [hrun]
    rfl
  generalize hfuel : ops.length + 1 + more = fuel at *
  refine ⟨hsome, Runs.System.always_iff_eachStep_of_left (I := fun n s => ∃ t : TRbTree cmp,
    RepresentsTree data s t ∧
    t.toList.length + n < fuel) hsome ?_ ?_ ?_ ?_⟩
  · rintro n s op s' ⟨t, h, hn⟩ hstep
    obtain ⟨s₁, t₁, hexec, h₁, hperm, -⟩ := exec_represents h op (show _ < fuel by omega)
    obtain rfl : s₁ = s' := Option.some.inj (hexec.symm.trans hstep)
    have hlength := op.length_present t.toList
    refine ⟨t₁, h₁, ?_⟩
    rw [hperm.length_eq]
    omega
  · rintro n s op s' ⟨t, h, hn⟩ hright hstep
    obtain ⟨s₁, t₁, hexec, h₁, hperm, hcount⟩ := exec_represents h op (show _ < fuel by omega)
    obtain rfl : s₁ = s' := Option.some.inj (hexec.symm.trans hstep)
    have hlength := op.length_present t.toList
    have hle : t₁.root.toList.length ≤ fuel := by
      have hle := hperm.length_eq
      unfold TRbTree.toList at *
      omega
    have hle' : t.root.toList.length ≤ fuel := by
      unfold TRbTree.toList at hn
      omega
    rw [countsRight_iff h₁.placed hle]
    exact hcount ((countsRight_iff h.placed hle').1 hright)
  · exact ⟨_, init_represents cmp data, by simp [TRbTree.empty, TRbTree.toList, toList]; omega⟩
  · exact (countsRight_iff (init_represents cmp data).placed (Nat.zero_le _)).2 trivial

/-- Numbers by their size. -/
def lessCompare : TRbTreeCompare Nat where
  compare a b := a < b
  asymm a b := by simp; omega
  trans a b c := by simp; omega

/-- The node of 1 still counts the node of 0, so that the second element is looked for on its
left. -/
theorem byIndex_after_erase :
    ((TRbTreeOp.system 9 lessCompare.compare 12).run (.init 9)
      [.insert ⟨2, by decide⟩, .insert ⟨1, by decide⟩,
        .insert ⟨4, by decide⟩, .insert ⟨0, by decide⟩, .erase ⟨0, by decide⟩]).map (fun s =>
      ((s.nodes 9).left.bind (forEach 9 s.nodes 12), (s.nodes 1).info.children, s.byIndex 9 12 1)) =
    some (some [1, 2, 4], 2, some (.error .indexNotFound)) := by
  decide +kernel

end Runs

end Balancer
