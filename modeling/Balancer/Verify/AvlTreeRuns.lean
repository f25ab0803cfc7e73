import Balancer.Util.RbTree
import Balancer.Verify.AvlTreeState

/-!
# Runs of calls on an AVL tree

The nodes represent a value of `TTree` (`RepresentsAvl`), and `Insert` and `Erase` on the nodes come
to the value that `TTree.insert` and `TTree.erase` make of it. The elements are met in their order
(`forEach_lies`), `LowerBound` finds the first one that is not less (`lowerBoundLoop_lies`), and
after any calls that are not refused all of this is so (`run_distinct`).

`Insert` of an element that is equal to a present one is refused after `Tree_` has been set. What
`Unlink` does to such an element depends on the links that it has from before (`erase_stale`,
`eachStep_keepsTree_iff`).
-/

namespace Balancer

open LinkedTree TAvlMemory TAvlPath LinkedTree.Path TAvlState LinkedTree.Tree Runs.System
open TTreeItem (height Heighted Balanced)
open Option (bind_eq_bind bind_some)
open Function (update update_of_ne)

variable {T : Type} {m : TAvlMemory T} {root : Option T} {k : TAvlPath T} {t l r : TTreeItem T}
  {el v : T}
  {h fuel : Nat}

section Order

variable [DecidableEq T]

/-! ### The elements in their order -/

/-- Without a right child the next element is an ancestor. -/
theorem climb_lies (hlies : Lies m root k t) (ht : t.ptr = some v) (hfuel : k.length < fuel) :
    climb m fuel v = some k.after.head? := by
  induction k generalizing t v fuel with
  | nil =>
    obtain ⟨fuel, rfl⟩ := Nat.exists_eq_add_one.2 hfuel.pos
    obtain ⟨n, a, b, rfl⟩ := exists_sided .left ht
    rw [climb, hlies.links.2.1]
    rfl
  | cons f k ih =>
    obtain ⟨fuel, rfl⟩ := Nat.exists_eq_add_one.2 hfuel.pos
    have hup := lies_cons.1 hlies
    obtain ⟨-, -, hchild, hother⟩ := hlies.frame
    have hmem : v ∉ f.sibling.toList := fun hv =>
      hlies.notMem_path (ptr_mem ht) (Path.mem_elems_cons.2 (.inr (.inl hv)))
    obtain ⟨n, a, b, rfl⟩ := exists_sided .left ht
    rw [climb, hlies.links.2.1]
    show (if (m f.val).left = some v then some (some f.val) else climb m fuel f.val) = _
    obtain ⟨d, n', x, u⟩ := f
    cases d with
    | left => exact if_pos (hchild.trans ht)
    | right =>
      have hleft : (m x).left = u.ptr := hother
      rw [if_neg (hleft.trans_ne (ptr_ne hmem))]
      exact ih hup rfl (Nat.lt_of_succ_lt_succ hfuel)

theorem findNext_lies (hlies : Lies m root k (node h l v r))
    (hfuel : (k.plug (node h l v r)).toList.length ≤ fuel) :
    findNext m fuel v = some (r.toList ++ k.after).head? := by
  have hlen := (length_le_plug k (node h l v r)).trans hfuel
  rw [toList_node, List.length_append, List.length_cons] at hlen
  have hright : (m v).right = r.ptr := (hlies.links (d := .left)).2.2.2
  rw [findNext, hright]
  cases hr : r.ptr with
  | none =>
    cases ptr_eq_none.1 hr
    exact climb_lies hlies rfl (by omega)
  | some c =>
    have hlies' : Lies m root (⟨.right, h, v, l⟩ :: k) r := lies_cons.2 hlies
    obtain ⟨down, w, n, x, hdescend, hside, hplug⟩ :=
      descend_lies (d := .left) hlies' hr (show _ ≤ fuel by omega)
    have hhead : r.toList.head? = some w := by
      rw [hplug, toList_plug, before_of_left hside]
      rfl
    show (descend .left m fuel c).map some = _
    rw [hdescend, List.head?_append_of_ne_nil _ (fun hnil => by simp [hnil] at hhead), hhead]
    rfl

/-- From an element on the elements are met in their order. -/
theorem forEach_lies {pre post : List T} (hlies : Lies m root [] t) (ht : t.toList = pre ++ post)
    (hfuel : t.toList.length + post.length < fuel) : forEach m fuel post.head? = some post := by
  induction post generalizing pre fuel with
  | nil =>
    obtain ⟨fuel, rfl⟩ := Nat.exists_eq_add_one.2 hfuel.pos
    rfl
  | cons v post ih =>
    obtain ⟨fuel, rfl⟩ := Nat.exists_eq_add_one.2 hfuel.pos
    rw [List.length_cons] at hfuel
    obtain ⟨k, l, h, r, rfl⟩ := exists_plug (show v ∈ t.toList by simp [ht])
    -- what is behind `v` in the tree
    have hpost : r.toList ++ k.after = post := by
      have hnodup := hlies.disjoint.2.1
      have heq : k.before ++ l.toList ++ v :: (r.toList ++ k.after) = pre ++ v :: post := by
        rw [← ht, toList_plug]
        simp
      rw [ht] at hnodup
      exact (List.append_cons_inj_of_notMem (by grind) (by grind)).1 heq |>.2.2
    have hnext := findNext_lies (lies_plug.2 hlies) (show _ ≤ fuel by omega)
    rw [hpost] at hnext
    simp only [List.head?_cons, forEach, hnext, bind_eq_bind, bind_some]
    rw [ih (show _ = (pre ++ [v]) ++ post by simp [ht]) (by omega)]
    rfl

end Order

/-! ### Comparisons -/

namespace TRbTreeCompare

variable {cmp : TRbTreeCompare T}

/-- `a` stands in front of `b`. -/
abbrev Less (cmp : TRbTreeCompare T) (a b : T) : Prop := cmp.compare a b = true

instance (cmp : TRbTreeCompare T) : IsStrictOrder T cmp.Less where
  irrefl a h := cmp.asymm a a h h
  trans a b c hab hbc := by
    by_contra hac
    exact cmp.trans c a b hac (cmp.asymm a b hab) hbc

/-- An element that is not in front of `b` is not in front of what is behind. -/
theorem less_of_less_of_not {a b c : T} (hab : cmp.Less a b) (hcb : ¬cmp.Less c b) :
    cmp.Less a c := by
  by_contra hac
  exact cmp.trans b c a hcb hac hab

end TRbTreeCompare

section Search

variable (cmp : TRbTreeCompare T)

/-- `LowerBound(el)` is the first element that is not less than `el`. -/
theorem lowerBoundLoop_lies {lb : Option T} (hlies : Lies m root k t)
    (hsorted : t.toList.Pairwise cmp.Less) (hfuel : t.toList.length < fuel) :
    lowerBoundLoop cmp.compare m el fuel t.ptr lb =
      some ((t.toList.find? fun c => !cmp.compare c el).or lb) := by
  induction t generalizing k lb fuel with
  | nil =>
    obtain ⟨fuel, rfl⟩ := Nat.exists_eq_add_one.2 hfuel.pos
    rfl
  | node h l x r ihl ihr =>
    obtain ⟨fuel, rfl⟩ := Nat.exists_eq_add_one.2 hfuel.pos
    rw [toList_node] at hsorted hfuel ⊢
    rw [List.length_append, List.length_cons] at hfuel
    obtain ⟨hl, hxr, hlt⟩ := List.pairwise_append.1 hsorted
    obtain ⟨hleft, hright, -, -⟩ := hlies.children
    rw [Tree.ptr, lowerBoundLoop, hleft, hright, List.find?_append, List.find?_cons]
    by_cases hel : cmp.compare el x = true
    · have hx : cmp.compare x el = false := Bool.eq_false_iff.2 (cmp.asymm el x hel)
      rw [if_pos hel, ihl (lies_cons (f := ⟨.left, h, x, r⟩).2 hlies) hl (by omega), hx]
      simp
    · -- the elements on the left are less, as `el` is not less than `x`
      have hnone : l.toList.find? (fun c => !cmp.compare c el) = none := by
        rw [List.find?_eq_none]
        intro c hc
        simp [TRbTreeCompare.less_of_less_of_not (hlt c hc x (by simp)) hel]
      rw [if_neg hel, hnone]
      by_cases hx : cmp.compare x el = true
      · rw [if_pos hx, ihr (lies_cons (f := ⟨.right, h, x, l⟩).2 hlies) hxr.of_cons (by omega), hx]
        simp
      · rw [if_neg hx]
        simp [hx]

variable [DecidableEq T] {lastLess : Option T}

/-- The place of `el` below a child is its place below the element. -/
theorem place_cons {f : TAvlFrame T} {res : Option (TPlace T)} {item item' : TTreeItem T}
    (h : ∃ (down : TAvlPath T) (lastLess' : Option T),
      res = some (.free (ptr none (down ++ f :: k)) lastLess') ∧
      Turned (down ++ f :: k) lastLess' ∧ item = down.plug nil ∧
      item' = down.fixup (node 1 nil el nil)) :
    ∃ (down : TAvlPath T) (lastLess' : Option T),
      res = some (.free (ptr none (down ++ k)) lastLess') ∧ Turned (down ++ k) lastLess' ∧
      plug [f] item = down.plug nil ∧ fixup [f] item' = down.fixup (node 1 nil el nil) := by
  obtain ⟨down, last, hres, hturned, rfl, rfl⟩ := h
  refine ⟨down ++ [f], last, ?_, ?_, (plug_append ..).symm, (fixup_append ..).symm⟩
  · rwa [List.append_assoc]
  · rwa [List.append_assoc]

/-- The loop of `Insert(el)` finds an element that is equal to `el`, or its place where there is
none. -/
theorem insertLoop_lies (hlies : Lies m root k t) (hsorted : t.toList.Pairwise cmp.Less)
    (hturned : Turned k lastLess) (hless : ∀ v ∈ lastLess, v ∉ t.toList)
    (hfuel : t.toList.length < fuel) : (∃ c ∈ t.toList, ¬cmp.Less el c ∧ ¬cmp.Less c el ∧
      insertLoop cmp.compare m el fuel t.ptr (k.ptr none) lastLess = some (.found c)) ∨
    (∀ c ∈ t.toList, cmp.Less el c ∨ cmp.Less c el) ∧ ∃ (down : TAvlPath T) (lastLess' : Option T),
      insertLoop cmp.compare m el fuel t.ptr (k.ptr none) lastLess =
        some (.free (ptr none (down ++ k)) lastLess') ∧
      Turned (down ++ k) lastLess' ∧ t = down.plug nil ∧
      t.attach cmp.Less el = down.fixup (node 1 nil el nil) := by
  induction t generalizing k lastLess fuel with
  | nil =>
    obtain ⟨fuel, rfl⟩ := Nat.exists_eq_add_one.2 hfuel.pos
    exact .inr ⟨nofun, [], lastLess, rfl, hturned, rfl, rfl⟩
  | node h l x r ihl ihr =>
    obtain ⟨fuel, rfl⟩ := Nat.exists_eq_add_one.2 hfuel.pos
    rw [toList_node, List.length_append, List.length_cons] at hfuel
    obtain ⟨hleft, hright, -, -⟩ := hlies.children
    have hnodup := hlies.disjoint.2.1
    rw [toList_node] at hsorted hless hnodup ⊢
    obtain ⟨hl, hxr, hlt⟩ := List.pairwise_append.1 hsorted
    rw [Tree.ptr, insertLoop, hleft, hright, TTreeItem.attach]
    by_cases hel : cmp.compare el x = true
    · have hlies' : Lies m root (⟨.left, h, x, r⟩ :: k) l := lies_cons.2 hlies
      have hturned' : Turned (⟨.left, h, x, r⟩ :: k) (some x) := by
        rintro f ⟨⟩
        exact if_pos rfl
      have hx : ∀ v ∈ some x, v ∉ l.toList := by
        rintro v ⟨⟩ hv
        exact (List.nodup_append.1 hnodup).2.2 x hv x (by simp) rfl
      rw [if_pos hel, if_pos hel]
      rcases ihl hlies' hl hturned' hx (show _ < fuel by omega) with
        ⟨c, hc, hcel, helc, hloop⟩ | ⟨hall, hplace⟩
      · exact .inl ⟨c, by simp [hc], hcel, helc, hloop⟩
      · refine .inr ⟨List.forall_mem_append.2
          ⟨hall, List.forall_mem_cons.2 ⟨.inl hel, fun c hc => .inl ?_⟩⟩, place_cons hplace⟩
        exact IsTrans.trans (r := cmp.Less) el x c hel ((List.pairwise_cons.1 hxr).1 c hc)
    · rw [if_neg hel, if_neg hel]
      by_cases hx : cmp.compare x el = true
      · have hlies' : Lies m root (⟨.right, h, x, l⟩ :: k) r := lies_cons.2 hlies
        have hturned' : Turned (⟨.right, h, x, l⟩ :: k) lastLess := by
          rintro f ⟨⟩
          exact if_neg fun hlast => hless x hlast (by simp)
        rw [if_pos hx, if_pos hx]
        rcases ihr hlies' hxr.of_cons hturned' (fun v hv hmem => hless v hv (by simp [hmem]))
          (show _ < fuel by omega) with
          ⟨c, hc, hcel, helc, hloop⟩ | ⟨hall, hplace⟩
        · exact .inl ⟨c, by simp [hc], hcel, helc, hloop⟩
        · refine .inr ⟨List.forall_mem_append.2
            ⟨fun c hc => .inr ?_, List.forall_mem_cons.2 ⟨.inr hx, hall⟩⟩, place_cons hplace⟩
          exact IsTrans.trans (r := cmp.Less) c x el (hlt c hc x (by simp)) hx
      · rw [if_neg hx]
        exact .inl ⟨x, by simp, hel, hx, rfl⟩

end Search

/-! ### Steps -/

/-- The nodes are those of a search tree; `Tree_` is set in its elements, and maybe in others. -/
structure RepresentsAvl (cmp : TRbTreeCompare T) (s : TAvlState T) (t : TTree T) : Prop where
  lies : Lies s.nodes s.root [] t.root
  head : s.head = t.head
  tail : s.tail = t.toList.getLast?
  valid : t.Valid cmp.Less
  tree : ∀ v ∈ t.toList, s.tree v = true

section Steps

variable [DecidableEq T] {cmp : TRbTreeCompare T} {s : TAvlState T} {t : TTree T}

namespace RepresentsAvl

omit [DecidableEq T] in
theorem ends (hrep : RepresentsAvl cmp s t) : Ends s t.toList :=
  ⟨hrep.head.trans hrep.valid.head, hrep.tail⟩

omit [DecidableEq T] in
theorem nodup (hrep : RepresentsAvl cmp s t) : t.toList.Nodup :=
  TTreeItem.nodup_of_sorted hrep.valid.sorted

omit [DecidableEq T] in
theorem of_ends (hlies : Lies s.nodes s.root [] t.root) (hends : Ends s t.toList)
    (hvalid : t.Valid cmp.Less) (htree : ∀ v ∈ t.toList, s.tree v = true) : RepresentsAvl cmp s t :=
  ⟨hlies, hends.head.trans hvalid.head.symm, hends.tail, hvalid, htree⟩

/-- Another `Tree_` in an element that is not in the tree. -/
theorem setTree (hrep : RepresentsAvl cmp s t) (hel : el ∉ t.toList) (b : Bool) :
    RepresentsAvl cmp { s with tree := update s.tree el b } t := by
  refine ⟨hrep.lies, hrep.head, hrep.tail, hrep.valid, fun v hv => ?_⟩
  rw [← hrep.tree v hv]
  exact update_of_ne (ne_of_mem_of_not_mem hv hel) _ _

theorem elements (hrep : RepresentsAvl cmp s t) (hfuel : 2 * t.toList.length < fuel) :
    s.elements fuel = some t.toList := by
  rw [TAvlState.elements, hrep.head, hrep.valid.head]
  exact forEach_lies hrep.lies (List.nil_append _).symm (by rw [TTree.toList] at hfuel ⊢; omega)

omit [DecidableEq T] in
theorem lowerBound (hrep : RepresentsAvl cmp s t) (el : T) (hfuel : t.toList.length < fuel) :
    s.lowerBound cmp.compare fuel el = some (t.toList.find? fun c => !cmp.compare c el) := by
  rw [TAvlState.lowerBound, hrep.lies.root_eq,
    lowerBoundLoop_lies cmp hrep.lies hrep.valid.sorted hfuel, Option.or_none]
  rfl

/-- `Erase(el)` of an element of the tree. -/
theorem erase (hrep : RepresentsAvl cmp s t) (hel : el ∈ t.toList)
    (hfuel : t.toList.length < fuel) :
    ∃ s', s.erase fuel el = some s' ∧ RepresentsAvl cmp s' (t.erase el) ∧
      s'.tree = update s.tree el false := by
  obtain ⟨s', herase, hlies, hends, htree⟩ :=
    eraseImpl_lies hrep.lies hrep.valid.balanced.heighted hrep.ends hel hfuel
  have hlist : (t.erase el).toList = t.toList.erase el := TTree.erase_toList hrep.nodup el
  refine ⟨s', ?_, of_ends ?_ ?_ (hrep.valid.erase el) fun v hv => ?_, htree⟩
  · rw [TAvlState.erase, if_pos (hrep.tree el hel), herase]
  · rwa [TTree.erase, if_pos hel]
  · rwa [hlist]
  · rw [hlist] at hv
    obtain ⟨hne, hv⟩ := (hrep.nodup.mem_erase_iff).1 hv
    rw [htree, update_of_ne hne, hrep.tree v hv]

/-- `Insert(el)` of an element that is equal to none. -/
theorem insertUnlinked_free (hrep : RepresentsAvl cmp s t) (hel : el ∉ t.toList)
    (htotal : ∀ c ∈ t.toList, cmp.Less el c ∨ cmp.Less c el) (hfuel : t.toList.length < fuel) :
    ∃ s', s.insertUnlinked cmp.compare fuel el = some (s', true) ∧
      RepresentsAvl cmp s' (t.insert cmp.Less el) ∧ s'.tree = update s.tree el true := by
  have hrep' := hrep.setTree hel true
  have hinsert := TTree.insert_spec hrep.valid hel htotal
  have hvalid := hrep.valid.insert hel htotal
  rcases @insertLoop_lies T _ _ [] _ el _ cmp _ none hrep'.lies hrep.valid.sorted nofun nofun
    hfuel with
    ⟨c, hc, hcel, helc, -⟩ | ⟨-, down, last, hloop, hturned, hplug, hattach⟩
  · exact absurd (htotal c hc) (not_or.2 ⟨hcel, helc⟩)
  · rw [List.append_nil] at hloop hturned
    have hends' := hrep'.ends
    rw [TTree.toList] at hel hends' hfuel
    have hlies' := hrep'.lies
    have hbal := hrep.valid.balanced
    rw [hplug] at hel hends' hlies' hbal hfuel
    obtain ⟨-, hloose, hmeasured⟩ := around_of_balanced hbal
    obtain ⟨s', hattachRebal, hlies₁, hends₁, htree₁⟩ :=
      attachRebal_lies (lies_plug.2 hlies') hel hturned hends' hloose
      hmeasured (lt_of_le_of_lt (Nat.le_of_add_right_le (length_le_plug down nil)) hfuel)
    have hlist : (t.insert cmp.Less el).toList = down.before ++ el :: down.after := by
      rw [TTree.toList, hinsert.1, hattach, toList_fixup, toList_plug]
      simp
    refine ⟨s', ?_, of_ends ?_ (hlist ▸ hends₁) hvalid fun v hv => ?_, htree₁⟩
    · rw [← hrep'.lies.root_eq] at hloop
      simp only [insertUnlinked, bind_eq_bind]
      rw [show insertLoop cmp.compare s.nodes el fuel s.root none none = _ from hloop, bind_some]
      simp only [hattachRebal, Option.map_some]
    · rw [hinsert.1, hattach]
      exact hlies₁
    · rw [htree₁]
      rcases eq_or_ne v el with rfl | hne
      · exact Function.update_self ..
      · refine (hrep'.tree v ?_)
        rw [hlist] at hv
        rw [TTree.toList, hplug, toList_plug]
        simpa [hne] using hv

/-- `Insert(el)` of an element that is equal to another one. -/
theorem insertUnlinked_found (hrep : RepresentsAvl cmp s t) {c : T} (hc : c ∈ t.toList)
    (hcel : ¬cmp.Less el c) (helc : ¬cmp.Less c el) (hfuel : t.toList.length < fuel) :
    s.insertUnlinked cmp.compare fuel el =
      some ({ s with tree := update s.tree el true }, false) := by
  rcases @insertLoop_lies T _ _ [] _ el _ cmp _ none hrep.lies hrep.valid.sorted nofun nofun
    hfuel with
    ⟨c', -, -, -, hfound⟩ | ⟨hall, -⟩
  · rw [← hrep.lies.root_eq] at hfound
    simp only [insertUnlinked,
      show insertLoop cmp.compare s.nodes el fuel s.root none none = _ from hfound, bind_eq_bind,
      bind_some]
  · exact absurd (hall c hc) (not_or.2 ⟨hcel, helc⟩)

end RepresentsAvl

/-! ### Calls on an element that was refused -/

/-- The element has no children left, and its old parent is in the tree, or nil. -/
structure Stale (s : TAvlState T) (elements : List T) (el : T) : Prop where
  left : (s.nodes el).left = none
  right : (s.nodes el).right = none
  parent : ∀ p ∈ (s.nodes el).parent, p ∈ elements

instance (s : TAvlState T) (elements : List T) (el : T) : Decidable (Stale s elements el) :=
  decidable_of_iff ((s.nodes el).left = none ∧ (s.nodes el).right = none ∧
    ∀ p ∈ (s.nodes el).parent, p ∈ elements)
    ⟨fun h => ⟨h.1, h.2.1, h.2.2⟩, fun h => ⟨h.left, h.right, h.parent⟩⟩

/-- `RemoveEl` sets the right child of the old parent, or `Root_`, to nil; it is nil already. -/
def Harmless (s : TAvlState T) (elements : List T) (el : T) : Prop :=
  ((s.nodes el).parent = none → elements = []) ∧ ∀ p ∈ (s.nodes el).parent, (s.nodes p).right = none

instance (s : TAvlState T) (elements : List T) (el : T) : Decidable (Harmless s elements el) :=
  inferInstanceAs (Decidable (_ ∧ _))

/-- The right child of a node is taken off. -/
theorem Lies.cutRight {m : TAvlMemory T} {root : Option T} {k : TAvlPath T} {l r : TTreeItem T}
    {p : T} {h : Nat} (hlies : Lies m root k (node h l p r)) :
    Lies (m.modify p (Cell.setChild .right none)) root k (node h l p nil) := by
  obtain ⟨hpath, htree, hdisj⟩ := hlies.disjoint
  obtain ⟨hinfo, hparent, hleft, -, hl, -⟩ := hlies.fits
  rw [toList_node] at htree
  have hpl : p ∉ l.toList := fun hmem => (List.nodup_append.1 htree).2.2 p hmem p (by simp) rfl
  refine ⟨(hangs_modify (hlies.notMem_path (by simp))).2 hlies.hangs, ?_, ?_⟩
  · rw [Fits, Memory.modify_self, fits_modify hpl]
    exact ⟨hinfo, hparent, hleft, rfl, hl, trivial⟩
  · refine List.nodup_append'.2 ⟨hpath, ?_, fun v hv hmem => hdisj hv ?_⟩
    · exact htree.sublist (by simp)
    · simp only [toList_node, toList_nil, List.mem_append, List.mem_cons, List.not_mem_nil,
        or_false] at hmem ⊢
      tauto

/-- Root, ends and elements are the same. -/
structure Unchanged (fuel : Nat) (s s' : TAvlState T) : Prop where
  root : s'.root = s.root
  head : s'.head = s.head
  tail : s'.tail = s.tail
  elements : s'.elements fuel = s.elements fuel

theorem RepresentsAvl.takeOut_stale (hrep : RepresentsAvl cmp s t) (hel : el ∉ t.toList)
    (hstale : Stale s t.toList el) (fuel : Nat) :
    s.takeOut fuel el = some (s.removeEl el none, (s.nodes el).parent) := by
  have hhead : s.head ≠ some el := by
    rw [hrep.head, hrep.valid.head]
    exact fun heq => hel (List.mem_of_mem_head? heq)
  have htail : s.tail ≠ some el := by
    rw [hrep.tail]
    exact fun heq => hel (List.mem_of_getLast? heq)
  rw [takeOut, hstale.left, hstale.right]
  simp only [replaceEnd, if_neg hhead, if_neg htail]

omit [DecidableEq T] in
theorem head?_append_cons (a r r' : List T) (x : T) :
    (a ++ x :: r).head? = (a ++ x :: r').head? := by
  cases a <;> rfl

/-- The right child of the old parent is lost. -/
theorem RepresentsAvl.eraseImpl_stale {p : T} (hrep : RepresentsAvl cmp s t) (hel : el ∉ t.toList)
    (hstale : Stale s t.toList el) (hp : (s.nodes el).parent = some p)
    (hfuel : 2 * t.toList.length < fuel) :
    ∃ s' t', s.eraseImpl fuel el = some s' ∧ s'.tree = update s.tree el false ∧ s'.head = s.head ∧
      s'.tail = s.tail ∧ Lies s'.nodes s'.root [] t' ∧ s'.elements fuel = some t'.toList ∧
      (t'.toList = t.toList ↔ (s.nodes p).right = none) ∧
      ((s.nodes p).right = none → t' = t.root) := by
  have hmem : p ∈ t.toList := hstale.parent p hp
  obtain ⟨k, l, h, r, hplug⟩ := exists_plug hmem
  have hlies : Lies s.nodes s.root k (node h l p r) := lies_plug.2 (hplug ▸ hrep.lies)
  obtain ⟨-, hright, -, -⟩ := hlies.children
  -- `el` is taken for the right child
  have hremove : ({ s with tree := update s.tree el false }.removeEl el none) =
      { s with
        tree := update s.tree el false
        nodes := s.nodes.modify p (Cell.setChild .right none) } := by
    have hleft : (s.nodes p).left ≠ some el :=
      fun hc => hel (hrep.lies.child_mem (d := .left) hmem hc)
    simp only [removeEl, hp, setInParent, if_neg hleft]
    rfl
  have htake :=
    (hrep.setTree hel false).takeOut_stale hel ⟨hstale.left, hstale.right, hstale.parent⟩ fuel
  rw [hremove, hp] at htake
  have hcut : Lies (s.nodes.modify p (Cell.setChild .right none)) s.root (⟨.left, h, p, nil⟩ :: k)
      l :=
    lies_cons.2 hlies.cutRight
  have hheighted := hrep.valid.balanced.heighted
  rw [hplug] at hheighted
  obtain ⟨hitem, hsiblings, hmeasured⟩ := around_of_heighted hheighted
  have hsiblings' : ∀ f ∈ (⟨.left, h, p, nil⟩ :: k : TAvlPath T), Heighted f.sibling :=
    List.forall_mem_cons.2 ⟨trivial, hsiblings⟩
  have hlen : (⟨.left, h, p, nil⟩ :: k : TAvlPath T).length < fuel := by
    have hle := length_le_plug k (node h l p r)
    rw [← hplug, toList_node, List.length_append, List.length_cons] at hle
    rw [List.length_cons]
    rw [TTree.toList] at hfuel
    omega
  obtain ⟨m', hrecalc, hlies₁⟩ := recalcHeights_lies hcut hmeasured hlen
  obtain ⟨s', hloop, hre, hlies'⟩ :=
    fixLoop_lies (s := { s with tree := update s.tree el false, nodes := m' }) hlies₁
      (measured_reheight _ _) (heighted_reheight hsiblings' _) hitem.1 (by rwa [length_reheight])
        (show _ < fuel by rwa [length_reheight])
  rw [fixup_reheight] at hlies'
  -- the elements before and after
  have hbefore : t.toList = k.before ++ l.toList ++ p :: (r.toList ++ k.after) := by
    rw [TTree.toList, hplug, toList_plug]
    simp
  have hafter : (fixup (⟨.left, h, p, nil⟩ :: k) l).toList =
      k.before ++ l.toList ++ p :: k.after := by
    rw [toList_fixup, toList_plug]
    simp [before, after]
  have hhead : s'.head = (fixup (⟨.left, h, p, nil⟩ :: k) l).toList.head? := by
    rw [hre.head, hafter]
    show s.head = _
    rw [hrep.head, hrep.valid.head, hbefore, head?_append_cons]
  refine ⟨s', fixup (⟨.left, h, p, nil⟩ :: k) l, ?_, hre.tree, hre.head, hre.tail, hlies', ?_, ?_,
    ?_⟩
  · simp only [eraseImpl, htake, bind_eq_bind, bind_some]
    rw [ptr_reheight] at hloop
    rw [if_neg (Option.some_ne_none p), show recalcHeights fuel _ (some p) = _ from hrecalc,
      bind_some]
    exact hloop
  · rw [TAvlState.elements, hhead]
    refine forEach_lies hlies' (List.nil_append _).symm ?_
    rw [hafter]
    rw [hbefore] at hfuel
    simp only [List.length_append, List.length_cons] at hfuel ⊢
    omega
  · rw [hafter, hbefore, hright, ptr_eq_none]
    simp
  · intro hnone
    rw [hright, ptr_eq_none] at hnone
    have hsame : t.root = plug (⟨.left, h, p, nil⟩ :: k) l := by rw [hplug, hnone]; rfl
    have hbal := hrep.valid.balanced
    rw [hsame] at hbal
    obtain ⟨-, hloose, hmeasured'⟩ := around_of_balanced hbal
    rw [fixup_of_loose hloose hmeasured', hsame]

/-- `Erase(el)` of an element with `Tree_` set that is not in the tree. -/
theorem RepresentsAvl.erase_stale (hrep : RepresentsAvl cmp s t) (hel : el ∉ t.toList)
    (htree : s.tree el = true) (hstale : Stale s t.toList el) (hfuel : 2 * t.toList.length < fuel) :
    ∃ s', s.erase fuel el = some s' ∧ s'.tree = update s.tree el false ∧
      (Unchanged fuel s s' ↔ Harmless s t.toList el) ∧
      (Harmless s t.toList el → RepresentsAvl cmp s' t) := by
  rw [TAvlState.erase, if_pos htree]
  cases hp : (s.nodes el).parent with
  | none =>
    -- the root is lost
    have htake :=
      (hrep.setTree hel false).takeOut_stale hel ⟨hstale.left, hstale.right, hstale.parent⟩ fuel
    have hremove : ({ s with tree := update s.tree el false }.removeEl el none) =
        { s with tree := update s.tree el false, root := none } := by
      simp only [removeEl, hp, setInParent]
      rfl
    rw [hremove, hp] at htake
    have hroot : none = s.root ↔ t.toList = [] := by
      rw [hrep.lies.root_eq, eq_comm, ptr_eq_none, TTree.toList, toList_eq_nil]
    have hharmless : Harmless s t.toList el ↔ t.toList = [] := by simp [Harmless, hp]
    refine ⟨{ s with tree := update s.tree el false, root := none }, ?_, rfl, ?_, ?_⟩
    · simp only [eraseImpl, htake, bind_eq_bind, bind_some]
      rfl
    · rw [hharmless, ← hroot]
      exact ⟨fun h => h.root, fun h => ⟨h, rfl, rfl, rfl⟩⟩
    · rw [hharmless, ← hroot]
      intro h
      have hset := hrep.setTree hel false
      exact ⟨h ▸ hset.lies, hset.head, hset.tail, hset.valid, hset.tree⟩
  | some p =>
    obtain ⟨s', t', herase, htree', hhead, htail, hlies', helements, hiff, hsame⟩ :=
      hrep.eraseImpl_stale hel hstale hp hfuel
    have hharmless : Harmless s t.toList el ↔ (s.nodes p).right = none := by simp [Harmless, hp]
    have hkept : (s.nodes p).right = none → RepresentsAvl cmp s' t := fun h => by
      refine ⟨hsame h ▸ hlies', hhead.trans hrep.head, htail.trans hrep.tail, hrep.valid,
        fun v hv => ?_⟩
      rw [htree', update_of_ne (ne_of_mem_of_not_mem hv hel), hrep.tree v hv]
    refine ⟨s', herase, htree', ?_, fun h => hkept (hharmless.1 h)⟩
    rw [hharmless]
    constructor
    · intro h
      have heq := h.elements
      rw [helements, hrep.elements hfuel] at heq
      exact hiff.1 (Option.some.inj heq)
    · intro h
      refine ⟨?_, hhead, htail, ?_⟩
      · rw [(hkept h).lies.root_eq, hrep.lies.root_eq]
      · rw [(hkept h).elements hfuel, hrep.elements hfuel]

/-- If the element was refused then its links do no harm. -/
def Spared (s : TAvlState T) (elements : List T) (el : T) : Prop :=
  s.tree el = true → el ∉ elements → Stale s elements el ∧ Harmless s elements el

/-- `Unlink()` of any element. -/
theorem RepresentsAvl.unlink (hrep : RepresentsAvl cmp s t) (hel : Spared s t.toList el)
    (hfuel : 2 * t.toList.length < fuel) :
    ∃ s', s.erase fuel el = some s' ∧ RepresentsAvl cmp s' (t.erase el) ∧
      s'.tree = update s.tree el false := by
  by_cases htree : s.tree el = true
  · by_cases hmem : el ∈ t.toList
    · exact hrep.erase hmem (by omega)
    · obtain ⟨hstale, hharmless⟩ := hel htree hmem
      obtain ⟨s', herase, htree', -, hkept⟩ := hrep.erase_stale hmem htree hstale hfuel
      refine ⟨s', herase, ?_, htree'⟩
      rw [TTree.erase, if_neg hmem]
      exact hkept hharmless
  · have hmem : el ∉ t.toList := fun hmem => htree (hrep.tree el hmem)
    refine ⟨s, ?_, ?_, ?_⟩
    · rw [TAvlState.erase, if_neg htree]
    · rwa [TTree.erase, if_neg hmem]
    · rw [← Bool.eq_false_iff.2 htree, Function.update_eq_self]

theorem RepresentsAvl.notMem_erase (hrep : RepresentsAvl cmp s t) : el ∉ (t.erase el).toList := by
  rw [TTree.erase_toList hrep.nodup]
  exact hrep.nodup.not_mem_erase

theorem RepresentsAvl.length_erase (hrep : RepresentsAvl cmp s t) (el : T) :
    (t.erase el).toList.length ≤ t.toList.length := by
  rw [TTree.erase_toList hrep.nodup]
  exact List.length_erase_le

/-- `Insert(el)` when no other element is equal to `el`. -/
theorem RepresentsAvl.insert_free (hrep : RepresentsAvl cmp s t) (hel : Spared s t.toList el)
    (htotal : ∀ c ∈ (t.erase el).toList, cmp.Less el c ∨ cmp.Less c el)
    (hfuel : 2 * t.toList.length < fuel) : ∃ s', s.insert cmp.compare fuel el = some (s', true) ∧
      RepresentsAvl cmp s' ((t.erase el).insert cmp.Less el) ∧ s'.tree = update s.tree el true := by
  obtain ⟨s₁, herase, hrep₁, htree₁⟩ := hrep.unlink hel hfuel
  have hle := hrep.length_erase el
  obtain ⟨s', hinsert, hrep', htree'⟩ :=
    hrep₁.insertUnlinked_free hrep.notMem_erase htotal (show _ < fuel by omega)
  refine ⟨s', ?_, hrep', ?_⟩
  · rw [TAvlState.insert, herase]
    exact hinsert
  · rw [htree', htree₁, Function.update_idem]

/-- `Insert(el)` when another element is equal to `el`. -/
theorem RepresentsAvl.insert_found (hrep : RepresentsAvl cmp s t) (hel : Spared s t.toList el)
    {c : T} (hc : c ∈ (t.erase el).toList) (hcel : ¬cmp.Less el c) (helc : ¬cmp.Less c el)
    (hfuel : 2 * t.toList.length < fuel) :
    ∃ s', s.insert cmp.compare fuel el = some (s', false) ∧ RepresentsAvl cmp s' (t.erase el) := by
  obtain ⟨s₁, herase, hrep₁, -⟩ := hrep.unlink hel hfuel
  have hle := hrep.length_erase el
  refine ⟨{ s₁ with tree := update s₁.tree el true }, ?_, hrep₁.setTree hrep.notMem_erase true⟩
  rw [TAvlState.insert, herase]
  exact hrep₁.insertUnlinked_found hc hcel helc (show _ < fuel by omega)

theorem RepresentsAvl.perm_insert (hrep : RepresentsAvl cmp s t)
    (htotal : ∀ c ∈ (t.erase el).toList, cmp.Less el c ∨ cmp.Less c el) :
    ((t.erase el).insert cmp.Less el).toList.Perm (el :: t.toList.erase el) := by
  rw [TTree.insert_toList (hrep.valid.erase el) hrep.notMem_erase htotal,
    ← TTree.erase_toList hrep.nodup]
  exact TAvlTree.insert_perm htotal

/-- A call changes the tree by one element at most. -/
theorem RepresentsAvl.exec (hrep : RepresentsAvl cmp s t) (op : TAvlOp T)
    (hel : Spared s t.toList op.el) (hfuel : 2 * t.toList.length < fuel) :
    ∃ s' t', op.exec cmp.compare fuel s = some s' ∧ RepresentsAvl cmp s' t' ∧
      t'.toList.length ≤ t.toList.length + 1 := by
  have hle := hrep.length_erase op.el
  cases op with
  | erase el =>
    rw [TAvlOp.el] at hel hle
    obtain ⟨s', herase, hrep', -⟩ := hrep.unlink hel hfuel
    exact ⟨s', t.erase el, herase, hrep', Nat.le_succ_of_le hle⟩
  | insert el =>
    rw [TAvlOp.el] at hel hle
    by_cases htotal : ∀ c ∈ (t.erase el).toList, cmp.Less el c ∨ cmp.Less c el
    · obtain ⟨s', hinsert, hrep', -⟩ := hrep.insert_free hel htotal hfuel
      refine ⟨s', _, ?_, hrep', ?_⟩
      · rw [TAvlOp.exec, hinsert]
        rfl
      · rw [(hrep.perm_insert htotal).length_eq, List.length_cons]
        exact Nat.succ_le_succ List.length_erase_le
    · push Not at htotal
      obtain ⟨c, hc, hcel, helc⟩ := htotal
      obtain ⟨s', hinsert, hrep'⟩ := hrep.insert_found hel hc hcel helc hfuel
      refine ⟨s', t.erase el, ?_, hrep', Nat.le_succ_of_le hle⟩
      rw [TAvlOp.exec, hinsert]
      rfl

end Steps

/-! ### Runs -/

/-- The number of nodes on the longest way down. -/
def TTreeItem.depth : TTreeItem T → Nat
  | nil => 0
  | node _ l _ r => max (depth l) (depth r) + 1

theorem TTreeItem.Heighted.height_eq {t : TTreeItem T} (ht : t.Heighted) : t.height = t.depth := by
  induction t with
  | nil => rfl
  | node h l x r ihl ihr => rw [height_node, depth, ht.2.2, ihl ht.1, ihr ht.2.1]

section Runs

variable [DecidableEq T]

namespace TAvlOp

/-- The elements that are present after a call that is not refused. -/
def present (l : List T) : TAvlOp T → List T
  | insert el => el :: l.erase el
  | erase el => l.erase el

/-- No element is inserted that is equal to another one that is present. -/
def Distinct (cmp : TRbTreeCompare T) : (present : List T) → List (TAvlOp T) → Prop
  | _, [] => True
  | l, insert el :: ops =>
    (∀ c ∈ l.erase el, cmp.Less el c ∨ cmp.Less c el) ∧ Distinct cmp (el :: l.erase el) ops
  | l, erase el :: ops => Distinct cmp (l.erase el) ops

end TAvlOp

variable {cmp : TRbTreeCompare T} {s : TAvlState T} {t : TTree T} {l : List T}

omit [DecidableEq T] in
theorem init_representsAvl (cmp : TRbTreeCompare T) : RepresentsAvl cmp .init ({} : TTree T) :=
  ⟨⟨rfl, trivial, List.nodup_nil⟩, rfl, rfl, TTree.valid_empty, nofun⟩

/-- A call that is not refused. -/
theorem exec_distinct (hrep : RepresentsAvl cmp s t) (htree : ∀ v, s.tree v = true ↔ v ∈ t.toList)
    (hperm : t.toList.Perm l) (op : TAvlOp T) {ops : List (TAvlOp T)}
    (hops : TAvlOp.Distinct cmp l (op :: ops)) (hfuel : 2 * t.toList.length < fuel) :
    TAvlOp.Distinct cmp (op.present l) ops ∧ ∃ s' t', op.exec cmp.compare fuel s = some s' ∧
      RepresentsAvl cmp s' t' ∧ (∀ v, s'.tree v = true ↔ v ∈ t'.toList) ∧
      t'.toList.Perm (op.present l) := by
  have hspared : ∀ el, Spared s t.toList el := fun el htrue hel => absurd ((htree el).1 htrue) hel
  cases op with
  | erase el =>
    obtain ⟨s', herase, hrep', htree'⟩ := hrep.unlink (hspared el) hfuel
    refine ⟨hops, s', t.erase el, herase, hrep', fun v => ?_, ?_⟩
    · rw [htree', TTree.erase_toList hrep.nodup, hrep.nodup.mem_erase_iff, ← htree v]
      rcases eq_or_ne v el with rfl | hne
      · simp
      · simp [hne]
    · rw [TTree.erase_toList hrep.nodup]
      exact hperm.erase el
  | insert el =>
    obtain ⟨hel, hops⟩ := hops
    have htotal : ∀ c ∈ (t.erase el).toList, cmp.Less el c ∨ cmp.Less c el := fun c hc => by
      rw [TTree.erase_toList hrep.nodup] at hc
      exact hel c ((hperm.erase el).mem_iff.1 hc)
    obtain ⟨s', hinsert, hrep', htree'⟩ := hrep.insert_free (hspared el) htotal hfuel
    have hperm' := hrep.perm_insert htotal
    refine ⟨hops, s', _, ?_, hrep', fun v => ?_, hperm'.trans ((hperm.erase el).cons el)⟩
    · rw [TAvlOp.exec, hinsert]
      rfl
    · rw [htree', hperm'.mem_iff, List.mem_cons, hrep.nodup.mem_erase_iff, ← htree v]
      rcases eq_or_ne v el with rfl | hne
      · simp
      · simp [hne]

theorem TAvlOp.length_present (op : TAvlOp T) (l : List T) :
    (op.present l).length ≤ l.length + 1 := by
  cases op with
  | insert el => exact Nat.succ_le_succ List.length_erase_le
  | erase el => exact Nat.le_succ_of_le List.length_erase_le

theorem run_distinct (ops : List (TAvlOp T)) (hrep : RepresentsAvl cmp s t)
    (htree : ∀ v, s.tree v = true ↔ v ∈ t.toList) (hperm : t.toList.Perm l)
    (hops : TAvlOp.Distinct cmp l ops) (hfuel : 2 * (t.toList.length + ops.length) < fuel) :
    ∃ s' t', (TAvlOp.system cmp.compare fuel).run s ops = some s' ∧ RepresentsAvl cmp s' t' ∧
      (∀ v, s'.tree v = true ↔ v ∈ t'.toList) ∧
      t'.toList.Perm (ops.foldl (fun l op => op.present l) l) ∧ 2 * t'.toList.length < fuel := by
  induction ops generalizing s t l with
  | nil => exact ⟨s, t, rfl, hrep, htree, hperm, hfuel⟩
  | cons op ops ih =>
    rw [List.length_cons] at hfuel
    obtain ⟨hops', s₁, t₁, hexec, hrep₁, htree₁, hperm₁⟩ :=
      exec_distinct hrep htree hperm op hops (show _ < fuel by omega)
    have hle := op.length_present l
    rw [← hperm₁.length_eq, ← hperm.length_eq] at hle
    obtain ⟨s', t', hrun, hrest⟩ := ih hrep₁ htree₁ hperm₁ hops' (by omega)
    exact ⟨s', t', (run_cons hexec).trans hrun, hrest⟩

/-- Calls that are not refused lead to a balanced tree of the elements that are present. -/
theorem run_avl (cmp : TRbTreeCompare T) (ops : List (TAvlOp T)) (hops : TAvlOp.Distinct cmp [] ops)
    (more : Nat) :
    ∃ s t, (TAvlOp.system cmp.compare (2 * ops.length + 1 + more)).run .init ops = some s ∧
      Lies s.nodes s.root [] t ∧ t.Balanced ∧
      (∀ (k : TAvlPath T) (u : TTreeItem T), t = k.plug u → u.height = u.depth) ∧
      s.elements (2 * ops.length + 1 + more) = some t.toList ∧
      t.toList.Perm (ops.foldl (fun l op => op.present l) []) ∧ t.toList.Pairwise cmp.Less ∧
      s.head = t.toList.head? ∧ s.tail = t.toList.getLast? ∧ (∀ v, s.tree v = true ↔ v ∈ t.toList) ∧
      ∀ el, s.lowerBound cmp.compare (2 * ops.length + 1 + more) el =
        some (t.toList.find? fun c => !cmp.compare c el) := by
  have hfuel : 2 * (({} : TTree T).toList.length + ops.length) < 2 * ops.length + 1 + more := by
    simp [TTree.toList]
    omega
  obtain ⟨s, t, hrun, hrep, htree, hperm, hlen⟩ :=
    run_distinct ops (init_representsAvl cmp) (fun v => by simp [TAvlState.init, TTree.toList])
      (.refl _) hops hfuel
  refine ⟨s, t.root, hrun, hrep.lies, hrep.valid.balanced, fun k u hu => ?_, hrep.elements hlen,
    hperm, hrep.valid.sorted, hrep.ends.head, hrep.tail, htree,
    fun el => hrep.lowerBound el (by omega)⟩
  exact (around_of_heighted (hu ▸ hrep.valid.balanced.heighted)).1.height_eq

/-- Numbers by their last digits. -/
def digitsCompare : TRbTreeCompare Nat where
  compare a b := a % 50 < b % 50
  asymm a b := by simp; omega
  trans a b c := by simp; omega

/-- 2 is the root, then 1. -/
theorem run_avl_erase :
    ∃ s, (TAvlOp.system digitsCompare.compare 7).run .init [.insert 2, .insert 1, .erase 2] =
      some s ∧
      s.head = some 1 ∧ s.tail = some 1 := by
  obtain ⟨s, t, hrun, -, -, -, -, hperm, -, hhead, htail, -⟩ :=
    run_avl digitsCompare [.insert 2, .insert 1, .erase 2]
      (by simp [TAvlOp.Distinct, TRbTreeCompare.Less, digitsCompare]) 0
  have hlist : t.toList = [1] := List.perm_singleton.1 hperm
  exact ⟨s, hrun, by rw [hhead, hlist]; rfl, by rw [htail, hlist]; rfl⟩

/-- Of a call on an element that was refused. -/
def OnRefused (fuel : Nat) (P : TAvlState T → List T → T → Prop) (s : TAvlState T) (op : TAvlOp T) :
    Prop :=
  ∀ l ∈ s.elements fuel, s.tree op.el = true → op.el ∉ l → P s l op.el

instance (P : TAvlState T → List T → T → Prop) [∀ s l el, Decidable (P s l el)] (s : TAvlState T)
    (op : TAvlOp T) : Decidable (OnRefused fuel P s op) :=
  inferInstanceAs (Decidable (∀ l ∈ s.elements fuel, _))

/-- `Unlink()` of the element leaves the tree as it is. -/
def KeepsTree (fuel : Nat) (s : TAvlState T) (_ : List T) (el : T) : Prop :=
  ∃ s', s.erase fuel el = some s' ∧ Unchanged fuel s s'

theorem RepresentsAvl.onRefused_iff (hrep : RepresentsAvl cmp s t)
    {P : TAvlState T → List T → T → Prop} {op : TAvlOp T} (hfuel : 2 * t.toList.length < fuel) :
    OnRefused fuel P s op ↔ (s.tree op.el = true → op.el ∉ t.toList → P s t.toList op.el) := by
  rw [OnRefused, hrep.elements hfuel]
  simp

theorem RepresentsAvl.keepsTree_iff (hrep : RepresentsAvl cmp s t) {op : TAvlOp T}
    (hstale : OnRefused fuel Stale s op) (hfuel : 2 * t.toList.length < fuel) :
    OnRefused fuel (KeepsTree fuel) s op ↔ OnRefused fuel Harmless s op := by
  rw [hrep.onRefused_iff hfuel] at hstale ⊢
  rw [hrep.onRefused_iff hfuel]
  refine forall_congr' fun htree => forall_congr' fun hel => ?_
  obtain ⟨s', herase, -, hiff, -⟩ := hrep.erase_stale hel htree (hstale htree hel) hfuel
  rw [← hiff, KeepsTree, herase]
  constructor
  · rintro ⟨s₁, ⟨⟩, h⟩
    exact h
  · exact fun h => ⟨s', rfl, h⟩

/-- A call that does no harm. -/
theorem RepresentsAvl.exec_harmless (hrep : RepresentsAvl cmp s t) {op : TAvlOp T}
    (hstale : OnRefused fuel Stale s op) (hharmless : OnRefused fuel Harmless s op)
    (hfuel : 2 * t.toList.length < fuel) :
    ∃ s' t', (TAvlOp.system cmp.compare fuel).step s op = some s' ∧ RepresentsAvl cmp s' t' ∧
      t'.toList.length ≤ t.toList.length + 1 := by
  rw [hrep.onRefused_iff hfuel] at hstale hharmless
  exact hrep.exec op (fun htree hel => ⟨hstale htree hel, hharmless htree hel⟩) hfuel

theorem run_harmless (ops : List (TAvlOp T)) (hrep : RepresentsAvl cmp s t)
    (hstale : (TAvlOp.system cmp.compare fuel).EachStep (OnRefused fuel Stale) s ops)
    (hharmless : (TAvlOp.system cmp.compare fuel).EachStep (OnRefused fuel Harmless) s ops)
    (hfuel : 2 * (t.toList.length + ops.length) < fuel) :
    ∃ s' t', (TAvlOp.system cmp.compare fuel).run s ops = some s' ∧ RepresentsAvl cmp s' t' ∧
      2 * t'.toList.length < fuel := by
  induction ops generalizing s t with
  | nil => exact ⟨s, t, rfl, hrep, hfuel⟩
  | cons op ops ih =>
    rw [List.length_cons] at hfuel
    obtain ⟨s₁, t₁, hstep, hrep₁, hle⟩ :=
      hrep.exec_harmless (hstale.head) (hharmless.head) (show _ < fuel by omega)
    rw [eachStep_cons hstep] at hstale hharmless
    obtain ⟨s', t', hrun, hrest⟩ := ih hrep₁ hstale.2 hharmless.2 (by omega)
    exact ⟨s', t', (run_cons hstep).trans hrun, hrest⟩

theorem eachStep_keepsTree_iff (ops : List (TAvlOp T)) (hrep : RepresentsAvl cmp s t)
    (hstale : (TAvlOp.system cmp.compare fuel).EachStep (OnRefused fuel Stale) s ops)
    (hfuel : 2 * (t.toList.length + ops.length) < fuel) :
    (TAvlOp.system cmp.compare fuel).EachStep (OnRefused fuel (KeepsTree fuel)) s ops ↔
      (TAvlOp.system cmp.compare fuel).EachStep (OnRefused fuel Harmless) s ops := by
  induction ops generalizing s t with
  | nil => exact iff_of_true eachStep_nil eachStep_nil
  | cons op ops ih =>
    rw [List.length_cons] at hfuel
    have hfirst := hrep.keepsTree_iff hstale.head (show _ < fuel by omega)
    by_cases hharmless : OnRefused fuel Harmless s op
    · obtain ⟨s₁, t₁, hstep, hrep₁, hle⟩ :=
        hrep.exec_harmless hstale.head hharmless (show _ < fuel by omega)
      rw [eachStep_cons hstep] at hstale ⊢
      rw [eachStep_cons hstep, hfirst, ih hrep₁ hstale.2 (by omega)]
    · exact iff_of_false (fun h => hharmless (hfirst.1 h.head)) fun h => hharmless h.head

/-- `Insert` of an element that is equal to a present one sets its `Tree_`. If what is left of its
links are no children, and no parent but one in the tree, then the tree stays as it is at every
later call for such an element iff the parent has no right child then, or there is none and the tree
is empty. -/
theorem refused_iff (cmp : TRbTreeCompare T) (ops : List (TAvlOp T)) (more : Nat)
    (hstale : (TAvlOp.system cmp.compare (2 * ops.length + 1 + more)).EachStep
      (OnRefused (2 * ops.length + 1 + more) Stale) .init ops) :
    ((TAvlOp.system cmp.compare (2 * ops.length + 1 + more)).EachStep
        (OnRefused (2 * ops.length + 1 + more) (KeepsTree (2 * ops.length + 1 + more))) .init ops ↔
      (TAvlOp.system cmp.compare (2 * ops.length + 1 + more)).EachStep
        (OnRefused (2 * ops.length + 1 + more) Harmless) .init ops) ∧
    ((TAvlOp.system cmp.compare (2 * ops.length + 1 + more)).EachStep
        (OnRefused (2 * ops.length + 1 + more) Harmless) .init ops →
      ∃ s l, (TAvlOp.system cmp.compare (2 * ops.length + 1 + more)).run .init ops = some s ∧
        s.elements (2 * ops.length + 1 + more) = some l ∧
        ∀ el, s.tree el = false → ∀ c ∈ l, ¬cmp.Less el c → ¬cmp.Less c el →
          s.insert cmp.compare (2 * ops.length + 1 + more) el =
            some ({ s with tree := update s.tree el true }, false)) := by
  have hrep := init_representsAvl (T := T) cmp
  have hfuel : 2 * (({} : TTree T).toList.length + ops.length) < 2 * ops.length + 1 + more := by
    simp [TTree.toList]
    omega
  refine ⟨eachStep_keepsTree_iff ops hrep hstale hfuel, fun hharmless => ?_⟩
  obtain ⟨s, t, hrun, hrep', hlen⟩ := run_harmless ops hrep hstale hharmless hfuel
  refine ⟨s, t.toList, hrun, hrep'.elements hlen, fun el htree c hc hcel helc => ?_⟩
  rw [TAvlState.insert, TAvlState.erase, if_neg (by simp [htree])]
  exact hrep'.insertUnlinked_found hc hcel helc (by omega)

/-- 20 was the left child of 30, which has no right child. -/
theorem refused_iff_left :
    (TAvlOp.system digitsCompare.compare 13).EachStep (OnRefused 13 (KeepsTree 13)) .init
    [.insert 30, .insert 20, .erase 20, .insert 70, .insert 20, .erase 20] :=
  (refused_iff digitsCompare [.insert 30, .insert 20, .erase 20, .insert 70, .insert 20, .erase 20]
    0 (by decide +kernel)).1.2 (by decide +kernel)

/-- 51 was refused, and never had a parent: the root is lost. -/
theorem root_after_refused :
    ((TAvlOp.system digitsCompare.compare 7).run .init [.insert 1, .insert 51]).map
        (fun s => (s.root, s.head, s.tail, s.elements 7)) =
          some (some 1, some 1, some 1, some [1]) ∧
      ((TAvlOp.system digitsCompare.compare 7).run .init [.insert 1, .insert 51, .erase 51]).map
        (fun s => (s.root, s.head, s.tail, s.elements 7)) = some (none, some 1, some 1, some [1]) :=
  ⟨by decide +kernel, by decide +kernel⟩

end Runs

end Balancer
