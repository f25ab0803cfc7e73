import Balancer.Theory.LinkedTree

/-!
# AVL trees

`util/generic/avltree.h`. A tree is taken as a value: a node holds its children and its height, and
the way back to the root by `Parent_` is the way out of the recursion. `TTree` adds `Head_`, which
the code keeps up to date beside the tree; `Tail_` is read by nobody.

What a tree is used for is the order of its elements. `TTree.insert_toList` and `TTree.erase_toList`
say what `Insert` and `Erase` do to it, `TTree.Valid` is kept by both, and so is the balance of the
nodes.
-/

namespace Balancer

open LinkedTree LinkedTree.Tree

/-! ### The order of the elements -/

namespace TAvlTree

variable {T : Type} (compare : T → T → Prop) [DecidableRel compare]

/-- `Insert(el)` on the elements in their order: the search goes left of `cur` or right of it, and
an element that compares equal is kept. -/
def insert (el : T) : List T → List T
  | [] => [el]
  | cur :: rest =>
    if compare el cur then el :: cur :: rest
    else if compare cur el then cur :: insert el rest
    else cur :: rest

variable {compare} {el : T} {l : List T}

theorem insert_perm (h : ∀ c ∈ l, compare el c ∨ compare c el) :
    (insert compare el l).Perm (el :: l) := by
  induction l with
  | nil => exact .refl _
  | cons cur rest ih =>
    rw [insert]
    by_cases hlt : compare el cur
    · rw [if_pos hlt]
    · have hgt : compare cur el := (h cur List.mem_cons_self).resolve_left hlt
      rw [if_neg hlt, if_pos hgt]
      have hrest := ih (List.forall_mem_cons.1 h).2
      exact (hrest.cons cur).trans (.swap el cur rest)

theorem insert_pairwise (htrans : ∀ {a b c}, compare a b → compare b c → compare a c)
    (h : ∀ c ∈ l, compare el c ∨ compare c el) (hl : l.Pairwise compare) :
    (insert compare el l).Pairwise compare := by
  induction l with
  | nil => exact List.pairwise_singleton _ _
  | cons cur rest ih =>
    obtain ⟨hcur, hrest⟩ := List.pairwise_cons.mp hl
    have h' : ∀ c ∈ rest, compare el c ∨ compare c el := (List.forall_mem_cons.1 h).2
    rw [insert]
    by_cases hlt : compare el cur
    · rw [if_pos hlt]
      refine List.pairwise_cons.mpr ⟨fun c hc => ?_, hl⟩
      rcases List.mem_cons.mp hc with rfl | hc
      · exact hlt
      · exact htrans hlt (hcur c hc)
    · have hgt : compare cur el := (h cur List.mem_cons_self).resolve_left hlt
      rw [if_neg hlt, if_pos hgt]
      refine List.pairwise_cons.mpr ⟨fun c hc => ?_, ih h' hrest⟩
      rcases List.mem_cons.mp ((insert_perm h').mem_iff.mp hc) with rfl | hc
      · exact hgt
      · exact hcur c hc

/-- An element below all others becomes the first one. -/
theorem insert_of_forall (h : ∀ c ∈ l, compare el c) : insert compare el l = el :: l := by
  cases l with
  | nil => rfl
  | cons cur rest => rw [insert, if_pos (h cur List.mem_cons_self)]

/-- In front of an element that it is below, an element is put as if the list ended there. -/
theorem insert_append_cons_left {x : T} (r : List T) (h : compare el x) :
    insert compare el (l ++ x :: r) = insert compare el l ++ x :: r := by
  induction l with
  | nil => simp only [List.nil_append, insert, if_pos h, List.cons_append]
  | cons cur rest ih =>
    rw [List.cons_append, insert, insert]
    split
    · rfl
    · split
      · rw [ih, List.cons_append]
      · rfl

/-- The elements that are below it are passed. -/
theorem insert_append (r : List T) (h : ∀ c ∈ l, ¬compare el c ∧ compare c el) :
    insert compare el (l ++ r) = l ++ insert compare el r := by
  induction l with
  | nil => rfl
  | cons cur rest ih =>
    obtain ⟨hlt, hgt⟩ := h cur List.mem_cons_self
    rw [List.cons_append, insert, if_neg hlt, if_pos hgt, ih (List.forall_mem_cons.1 h).2]
    rfl

end TAvlTree

/-! ### Nodes -/

/-- A node with what hangs below it, which holds `Height_`; `nil` is no node. -/
abbrev TTreeItem (T : Type) := Tree T Nat

namespace TTreeItem

variable {T : Type}

def height : TTreeItem T → Nat
  | nil => 0
  | node h _ _ _ => h

/-- A node whose height is computed from its children, as `RecalcHeights` does. -/
def recalc (l : TTreeItem T) (x : T) (r : TTreeItem T) : TTreeItem T :=
  node (max l.height r.height + 1) l x r

/-- The end of `Rebalance`: the nodes `a`, `b` and `c` with the trees between them. -/
def rebuild (t1 : TTreeItem T) (a : T) (t2 : TTreeItem T) (b : T) (t3 : TTreeItem T) (c : T)
    (t4 : TTreeItem T) : TTreeItem T :=
  recalc (recalc t1 a t2) b (recalc t3 c t4)

/-- The node `x` after a change below it: its height is computed again, and if it is out of balance
then `Rebalance` is called for its higher grandchild on the higher side. `EraseImpl` takes the outer
one of two grandchildren of the same height; after an insertion they differ. -/
def rebalance (l : TTreeItem T) (x : T) (r : TTreeItem T) : TTreeItem T :=
  if l.height + 1 < r.height then
    match r with
    | node _ rl y rr =>
      if height rr < height rl then
        match rl with
        | node _ t2 z t3 => rebuild l x t2 z t3 y rr
        | nil => recalc l x r
      else
        match rr with
        | node _ t3 z t4 => rebuild l x rl y t3 z t4
        | nil => recalc l x r
    | nil => recalc l x r
  else if r.height + 1 < l.height then
    match l with
    | node _ ll y lr =>
      if height ll < height lr then
        match lr with
        | node _ t2 z t3 => rebuild ll y t2 z t3 x r
        | nil => recalc l x r
      else
        match ll with
        | node _ t1 z t2 => rebuild t1 z t2 y lr x r
        | nil => recalc l x r
    | nil => recalc l x r
  else recalc l x r

/-- The node with the smallest element is taken out and its right child put in its place. -/
def removeFirst : TTreeItem T → Option (T × TTreeItem T)
  | nil => none
  | node _ l x r =>
    match removeFirst l with
    | none => some (x, r)
    | some (m, l') => some (m, rebalance l' x r)

def removeLast : TTreeItem T → Option (T × TTreeItem T)
  | nil => none
  | node _ l x r =>
    match removeLast r with
    | none => some (x, l)
    | some (m, r') => some (m, rebalance l x r')

/-- What replaces a node with the children `l` and `r` in `EraseImpl`. -/
def replacement (l r : TTreeItem T) : TTreeItem T :=
  match r.removeFirst with
  | some (m, r') => rebalance l m r'
  | none =>
    match l.removeLast with
    | some (m, l') => rebalance l' m r
    | none => nil

section
variable (compare : T → T → Prop) [DecidableRel compare]

/-- `AttachRebal` where the search for `el` ends. -/
def attach (el : T) : TTreeItem T → TTreeItem T
  | nil => node 1 nil el nil
  | node h l x r =>
    if compare el x then rebalance (attach el l) x r
    else if compare x el then rebalance l x (attach el r)
    else node h l x r

/-- The loop of `Insert`: `parentEl` and `lastLess` when it reaches the place for `el`; `none` if an
equal element is found. -/
def place (el : T) (parentEl lastLess : Option T) : TTreeItem T → Option (Option T × Option T)
  | nil => some (parentEl, lastLess)
  | node _ l x r =>
    if compare el x then place el (some x) (some x) l
    else if compare x el then place el (some x) lastLess r
    else none

end

section
variable [DecidableEq T]

/-- `EraseImpl(el)` for a node of the tree. -/
def eraseImpl (el : T) : TTreeItem T → TTreeItem T
  | nil => nil
  | node _ l x r =>
    if x = el then replacement l r
    else if el ∈ l.toList then rebalance (eraseImpl el l) x r
    else rebalance l x (eraseImpl el r)

/-- The fields `Parent_`, `Left_` and `Right_` of the node of `el`. -/
def links (el : T) (parent : Option T) : TTreeItem T → Option (Option T × TTreeItem T × TTreeItem T)
  | nil => none
  | node _ l x r =>
    if x = el then some (parent, l, r)
    else if el ∈ l.toList then links el (some x) l
    else links el (some x) r

end

end TTreeItem

/-- `TAvlTree`: `Root_` and `Head_`. -/
structure TTree (T : Type) where
  root : TTreeItem T := .nil
  head : Option T := none
  deriving DecidableEq, Repr

namespace TTree

variable {T : Type}

def toList (t : TTree T) : List T := t.root.toList

variable [DecidableEq T]

/-- `EraseImpl(el)`, with the new `Head_`. -/
def eraseImpl (t : TTree T) (el : T) : TTree T where
  root := t.root.eraseImpl el
  head :=
    if t.head = some el then
      match t.root.links el none with
      | some (parent, l, r) =>
        if r ≠ .nil then r.toList.head?
        else if l ≠ .nil then t.head
        else parent
      | none => t.head
    else t.head

/-- `Erase(el)`, which does nothing for an element that is not linked into the tree. -/
def erase (t : TTree T) (el : T) : TTree T := if el ∈ t.toList then t.eraseImpl el else t

/-- `Insert(el)` -/
def insert (compare : T → T → Prop) [DecidableRel compare] (t : TTree T) (el : T) : TTree T :=
  let t := t.erase el
  match t.root.place compare el none none with
  | none => t
  | some (parentEl, lastLess) =>
    { root := t.root.attach compare el
      head :=
        match parentEl with
        | none => some el
        | some p => if lastLess = some p ∧ t.head = some p then some el else t.head }

end TTree

/-! ### The order is kept -/

namespace TTreeItem

variable {T : Type} {el x : T} {l r t : TTreeItem T}

@[simp] theorem height_nil : height (nil : TTreeItem T) = 0 := rfl

@[simp] theorem height_node (l : TTreeItem T) (x : T) (h : Nat) (r : TTreeItem T) :
    height (node h l x r) = h := rfl

@[simp] theorem toList_recalc (l : TTreeItem T) (x : T) (r : TTreeItem T) :
    (recalc l x r).toList = l.toList ++ x :: r.toList := rfl

@[simp] theorem toList_rebalance (l : TTreeItem T) (x : T) (r : TTreeItem T) :
    (rebalance l x r).toList = l.toList ++ x :: r.toList := by
  unfold rebalance
  repeat' split
  all_goals simp [rebuild]

theorem removeFirst_toList (t : TTreeItem T) :
    t.toList = match t.removeFirst with
      | none => []
      | some (m, t') => m :: t'.toList := by
  induction t with
  | nil => rfl
  | node h l x r ihl _ =>
    rw [removeFirst, toList_node, ihl]
    cases removeFirst l with
    | none => rfl
    | some p => simp

theorem removeLast_toList (t : TTreeItem T) :
    t.toList = match t.removeLast with
      | none => []
      | some (m, t') => t'.toList ++ [m] := by
  induction t with
  | nil => rfl
  | node h l x r _ ihr =>
    rw [removeLast, toList_node, ihr]
    cases removeLast r with
    | none => rfl
    | some p => simp

theorem removeFirst_eq_none (h : t.removeFirst = none) : t = nil := by
  have := removeFirst_toList t
  rwa [h, toList_eq_nil] at this

theorem toList_replacement (l r : TTreeItem T) :
    (replacement l r).toList = l.toList ++ r.toList := by
  rw [replacement]
  cases hr : r.removeFirst with
  | some p =>
    have := removeFirst_toList r
    rw [hr] at this
    rw [this, toList_rebalance]
  | none =>
    cases removeFirst_eq_none hr
    have := removeLast_toList l
    cases hl : l.removeLast with
    | some p =>
      rw [hl] at this
      rw [this, toList_rebalance]
      simp
    | none =>
      rw [hl] at this
      rw [this]
      rfl

section
variable {compare : T → T → Prop} [DecidableRel compare]

/-- The search ends where the element belongs. -/
theorem attach_toList [IsStrictOrder T compare] (hsorted : t.toList.Pairwise compare)
    (h : ∀ c ∈ t.toList, compare el c ∨ compare c el) :
    (t.attach compare el).toList = TAvlTree.insert compare el t.toList := by
  induction t with
  | nil => rfl
  | node ht l x r ihl ihr =>
    rw [toList_node] at hsorted h
    obtain ⟨hl, hxr, hlt⟩ := List.pairwise_append.1 hsorted
    rw [attach, toList_node]
    by_cases hel : compare el x
    · rw [if_pos hel, toList_rebalance, TAvlTree.insert_append_cons_left _ hel,
        ihl hl fun c hc => h c (List.mem_append_left _ hc)]
    · have hx : compare x el :=
        (h x (List.mem_append_right _ List.mem_cons_self)).resolve_left hel
      have hpass : ∀ c ∈ l.toList, ¬compare el c ∧ compare c el := by
        intro c hc
        have hcel : compare c el := IsTrans.trans c x el (hlt c hc x List.mem_cons_self) hx
        exact ⟨fun h => irrefl (r := compare) el (IsTrans.trans el c el h hcel), hcel⟩
      rw [if_neg hel, if_pos hx, toList_rebalance, TAvlTree.insert_append _ hpass, TAvlTree.insert,
        if_neg hel, if_pos hx, ihr hxr.of_cons fun c hc =>
          h c (List.mem_append_right _ (List.mem_cons_of_mem _ hc))]

omit [DecidableRel compare] in
theorem nodup_of_sorted [IsStrictOrder T compare] {l : List T} (h : l.Pairwise compare) : l.Nodup :=
  h.imp fun hab => ne_of_irrefl hab

omit [DecidableRel compare] in
/-- `el` is below all elements if it is below those to the left of one that it is below. -/
theorem forall_compare_iff [IsTrans T compare] {l r : List T} {x el : T}
    (hxr : (x :: r).Pairwise compare) (hel : compare el x) :
    (∀ c ∈ l ++ x :: r, compare el c) ↔ ∀ c ∈ l, compare el c := by
  rw [List.forall_mem_append, List.forall_mem_cons]
  exact and_iff_left ⟨hel, fun c hc => IsTrans.trans el x c hel ((List.pairwise_cons.1 hxr).1 c hc)⟩

/-- The first element is not to the right of one. -/
theorem head?_ne_of_mem {l r : List T} {x q : T} (hnodup : (l ++ x :: r).Nodup) (hq : q ∈ r) :
    (l ++ x :: r).head? ≠ some q := by
  intro hhead
  cases l with
  | nil =>
    cases hhead
    exact (List.nodup_cons.1 hnodup).1 hq
  | cons y ys =>
    cases hhead
    exact (List.nodup_cons.1 hnodup).1 (List.mem_append_right _ (List.mem_cons_of_mem _ hq))

/-- The place is in a tree, and it is to the left of the first element iff `el` is below all
elements. -/
theorem place_spec [IsStrictOrder T compare] (hsorted : t.toList.Pairwise compare)
    (h : ∀ c ∈ t.toList, compare el c ∨ compare c el) (hne : t ≠ nil) (parentEl : Option T)
    {lastLess : Option T} (hless : ∀ m ∈ lastLess, m ∉ t.toList) :
    ∃ q m, t.place compare el parentEl lastLess = some (some q, m) ∧ q ∈ t.toList ∧
      (m = some q ∧ t.toList.head? = some q ↔ ∀ c ∈ t.toList, compare el c) := by
  induction t generalizing parentEl lastLess with
  | nil => exact absurd rfl hne
  | node ht l x r ihl ihr =>
    rw [toList_node] at hsorted h hless ⊢
    have hnodup := nodup_of_sorted hsorted
    obtain ⟨hl, hxr, hlt⟩ := List.pairwise_append.1 hsorted
    rw [place]
    by_cases hel : compare el x
    · -- everything from `x` on is above `el`
      rw [if_pos hel, forall_compare_iff hxr hel]
      by_cases hnull : l = nil
      · subst hnull
        exact ⟨x, some x, rfl, by simp, by simp⟩
      · have hx : ∀ m ∈ some x, m ∉ l.toList := by
          intro m hm hml
          cases hm
          exact (List.nodup_append.1 hnodup).2.2 x hml x List.mem_cons_self rfl
        obtain ⟨q, m, hplace, hq, hiff⟩ :=
          ihl hl (fun c hc => h c (List.mem_append_left _ hc)) hnull (some x) hx
        refine ⟨q, m, hplace, List.mem_append_left _ hq, ?_⟩
        rw [List.head?_append_of_ne_nil _ (mt toList_eq_nil.1 hnull)]
        exact hiff
    · have hx : compare x el :=
        (h x (List.mem_append_right _ List.mem_cons_self)).resolve_left hel
      have hall : ¬∀ c ∈ l.toList ++ x :: r.toList, compare el c := fun H =>
        hel (H x (List.mem_append_right _ List.mem_cons_self))
      rw [if_neg hel, if_pos hx]
      by_cases hnull : r = nil
      · subst hnull
        refine ⟨x, lastLess, rfl, by simp, iff_of_false ?_ hall⟩
        rintro ⟨rfl, -⟩
        exact hless x rfl (List.mem_append_right _ List.mem_cons_self)
      · obtain ⟨q, m, hplace, hq, -⟩ :=
          ihr hxr.of_cons (fun c hc => h c (List.mem_append_right _ (List.mem_cons_of_mem _ hc)))
            hnull (some x) fun m hm hmr =>
              hless m hm (List.mem_append_right _ (List.mem_cons_of_mem _ hmr))
        refine ⟨q, m, hplace, List.mem_append_right _ (List.mem_cons_of_mem _ hq),
          iff_of_false ?_ hall⟩
        exact fun hhead => head?_ne_of_mem hnodup hq hhead.2

end

section
variable [DecidableEq T]

theorem toList_eraseImpl (hnodup : t.toList.Nodup) (hel : el ∈ t.toList) :
    (t.eraseImpl el).toList = t.toList.erase el := by
  induction t with
  | nil => cases hel
  | node h l x r ihl ihr =>
    rw [toList_node] at hnodup hel
    obtain ⟨hl, hxr, hdisj⟩ := List.nodup_append.1 hnodup
    rw [eraseImpl, toList_node]
    by_cases hx : x = el
    · subst hx
      have hxl : x ∉ l.toList := fun hm => hdisj x hm x List.mem_cons_self rfl
      rw [if_pos rfl, toList_replacement, List.erase_append_right _ hxl, List.erase_cons_head]
    · rw [if_neg hx]
      by_cases hm : el ∈ l.toList
      · rw [if_pos hm, toList_rebalance, ihl hl hm, List.erase_append_left _ hm]
      · have hr : el ∈ r.toList := by
          rcases List.mem_append.1 hel with hel | hel
          · exact absurd hel hm
          · exact (List.mem_cons.1 hel).resolve_left (Ne.symm hx)
        rw [if_neg hm, toList_rebalance, ihr (List.nodup_cons.1 hxr).2 hr,
          List.erase_append_right _ hm, List.erase_cons_tail (by simpa using hx)]

/-- The first element has no left child, and the next one is the first to its right or else its
parent. -/
theorem links_head {rest : List T} (hnodup : t.toList.Nodup) (ht : t.toList = el :: rest)
    (parent : Option T) :
    ∃ p r, t.links el parent = some (p, nil, r) ∧
      (if r ≠ nil then r.toList.head? else p) = rest.head?.or parent := by
  induction t generalizing rest parent with
  | nil => cases ht
  | node h l x r ihl _ =>
    rw [toList_node] at hnodup ht
    obtain ⟨hl, -, hdisj⟩ := List.nodup_append.1 hnodup
    cases hll : l.toList with
    | nil =>
      cases toList_eq_nil.1 hll
      cases ht
      refine ⟨parent, r, by rw [links, if_pos rfl], ?_⟩
      by_cases hr : r = nil
      · simp [hr]
      · obtain ⟨y, ys, hy⟩ := List.exists_cons_of_ne_nil (mt toList_eq_nil.1 hr)
        simp [hr, hy]
    | cons y ys =>
      rw [hll, List.cons_append] at ht
      cases ht
      have hel : el ∈ l.toList := by rw [hll]; exact List.mem_cons_self
      have hx : x ≠ el := fun h => hdisj el hel x List.mem_cons_self h.symm
      obtain ⟨p, r', hlinks, hnext⟩ := ihl hl hll (some x)
      refine ⟨p, r', ?_, ?_⟩
      · rw [links, if_neg hx, if_pos hel, hlinks]
      · rw [hnext]
        cases ys <;> simp

end

/-! ### The balance is kept -/

/-- Every node has the height of its tree, and its children differ by one level at most. -/
def Balanced : TTreeItem T → Prop
  | nil => True
  | node h l _ r =>
    Balanced l ∧ Balanced r ∧ h = max (height l) (height r) + 1 ∧ height l ≤ height r + 1 ∧
      height r ≤ height l + 1

theorem rebalance_balanced (x : T) (hl : l.Balanced) (hr : r.Balanced)
    (hlr : l.height ≤ r.height + 2) (hrl : r.height ≤ l.height + 2) :
    (rebalance l x r).Balanced ∧ (rebalance l x r).height ≤ max l.height r.height + 1 ∧
      max l.height r.height ≤ (rebalance l x r).height ∧
      (l.height ≤ r.height + 1 → r.height ≤ l.height + 1 →
        (rebalance l x r).height = max l.height r.height + 1) := by
  by_cases hright : l.height + 1 < r.height
  · cases r with
    | nil => cases hright
    | node h rl y rr =>
      obtain ⟨hbl, hbr, rfl, h1, h2⟩ := hr
      rw [height_node] at hright hrl hlr
      by_cases hin : height rr < height rl
      · cases rl with
        | nil => cases hin
        | node h t2 z t3 =>
          obtain ⟨hb2, hb3, rfl, h3, h4⟩ := hbl
          simp only [height_node] at hright hin h1 h2 hrl hlr
          simp only [rebalance, height_node, hright, hin, if_true, rebuild, recalc, Balanced, hl,
            hb2, hb3, hbr, true_and]
          omega
      · cases rr with
        | nil =>
          rw [height_nil] at hin hright h1
          omega
        | node h t3 z t4 =>
          obtain ⟨hb3, hb4, rfl, h3, h4⟩ := hbr
          simp only [height_node] at hright hin h1 h2 hrl hlr
          simp only [rebalance, height_node, hright, hin, if_true, if_false, rebuild, recalc,
            Balanced, hl, hbl, hb3, hb4, true_and]
          omega
  · by_cases hleft : r.height + 1 < l.height
    · cases l with
      | nil => cases hleft
      | node h ll y lr =>
        obtain ⟨hbl, hbr, rfl, h1, h2⟩ := hl
        rw [height_node] at hright hleft hrl hlr
        by_cases hin : height ll < height lr
        · cases lr with
          | nil => cases hin
          | node h t2 z t3 =>
            obtain ⟨hb2, hb3, rfl, h3, h4⟩ := hbr
            simp only [height_node] at hright hleft hin h1 h2 hrl hlr
            simp only [rebalance, height_node, hright, hleft, hin, if_true, if_false, rebuild,
              recalc, Balanced, hr, hb2, hb3, hbl, true_and]
            omega
        · cases ll with
          | nil =>
            rw [height_nil] at hin hleft h2
            omega
          | node h t1 z t2 =>
            obtain ⟨hb1, hb2, rfl, h3, h4⟩ := hbl
            simp only [height_node] at hright hleft hin h1 h2 hrl hlr
            simp only [rebalance, height_node, hright, hleft, hin, if_true, if_false, rebuild,
              recalc, Balanced, hr, hbr, hb1, hb2, true_and]
            omega
    · have heq : rebalance l x r = recalc l x r := by
        simp only [rebalance, if_neg hright, if_neg hleft]
      rw [heq, recalc, height_node]
      refine ⟨⟨hl, hr, rfl, by omega, by omega⟩, Nat.le_refl _, Nat.le_succ _, fun _ _ => rfl⟩

theorem Balanced.attach {compare : T → T → Prop} [DecidableRel compare] (el : T) (h : t.Balanced) :
    (t.attach compare el).Balanced ∧ t.height ≤ (t.attach compare el).height ∧
      (t.attach compare el).height ≤ t.height + 1 := by
  induction t with
  | nil =>
    exact ⟨⟨trivial, trivial, rfl, Nat.zero_le _, Nat.zero_le _⟩, Nat.zero_le _, Nat.le_refl _⟩
  | node ht l x r ihl ihr =>
    obtain ⟨hl, hr, rfl, h1, h2⟩ := h
    rw [TTreeItem.attach, height_node]
    split
    · obtain ⟨hb, hle, hge⟩ := ihl hl
      obtain ⟨hbal, hup, hdown, hsame⟩ := rebalance_balanced x hb hr (by omega) (by omega)
      exact ⟨hbal, by omega, by omega⟩
    · split
      · obtain ⟨hb, hle, hge⟩ := ihr hr
        obtain ⟨hbal, hup, hdown, hsame⟩ := rebalance_balanced x hl hb (by omega) (by omega)
        exact ⟨hbal, by omega, by omega⟩
      · exact ⟨⟨hl, hr, rfl, h1, h2⟩, Nat.le_refl _, Nat.le_succ _⟩

theorem Balanced.removeFirst (h : t.Balanced) {m : T} {t' : TTreeItem T}
    (ht : t.removeFirst = some (m, t')) :
    t'.Balanced ∧ t'.height ≤ t.height ∧ t.height ≤ t'.height + 1 := by
  induction t generalizing m t' with
  | nil => cases ht
  | node h' l x r ihl _ =>
    obtain ⟨hl, hr, rfl, h1, h2⟩ := h
    rw [TTreeItem.removeFirst] at ht
    rw [height_node]
    cases hl' : TTreeItem.removeFirst l with
    | none =>
      rw [hl'] at ht
      cases ht
      cases removeFirst_eq_none hl'
      rw [height_nil] at h1 h2 ⊢
      exact ⟨hr, by omega, by omega⟩
    | some p =>
      rw [hl'] at ht
      cases ht
      obtain ⟨hb, hle, hge⟩ := ihl hl hl'
      obtain ⟨hbal, hup, hdown, hsame⟩ := rebalance_balanced x hb hr (by omega) (by omega)
      exact ⟨hbal, by omega, by omega⟩

theorem removeLast_eq_none (h : t.removeLast = none) : t = nil := by
  have := removeLast_toList t
  rwa [h, toList_eq_nil] at this

theorem Balanced.removeLast (h : t.Balanced) {m : T} {t' : TTreeItem T}
    (ht : t.removeLast = some (m, t')) :
    t'.Balanced ∧ t'.height ≤ t.height ∧ t.height ≤ t'.height + 1 := by
  induction t generalizing m t' with
  | nil => cases ht
  | node h' l x r _ ihr =>
    obtain ⟨hl, hr, rfl, h1, h2⟩ := h
    rw [TTreeItem.removeLast] at ht
    rw [height_node]
    cases hr' : TTreeItem.removeLast r with
    | none =>
      rw [hr'] at ht
      cases ht
      cases removeLast_eq_none hr'
      rw [height_nil] at h1 h2 ⊢
      exact ⟨hl, by omega, by omega⟩
    | some p =>
      rw [hr'] at ht
      cases ht
      obtain ⟨hb, hle, hge⟩ := ihr hr hr'
      obtain ⟨hbal, hup, hdown, hsame⟩ := rebalance_balanced x hl hb (by omega) (by omega)
      exact ⟨hbal, by omega, by omega⟩

theorem Balanced.replacement (hl : l.Balanced) (hr : r.Balanced) (h1 : l.height ≤ r.height + 1)
    (h2 : r.height ≤ l.height + 1) :
    (replacement l r).Balanced ∧ (replacement l r).height ≤ max l.height r.height + 1 ∧
      max l.height r.height ≤ (replacement l r).height := by
  rw [TTreeItem.replacement]
  cases hr' : r.removeFirst with
  | some p =>
    dsimp only
    obtain ⟨hb, hle, hge⟩ := hr.removeFirst hr'
    obtain ⟨hbal, hup, hdown, hsame⟩ := rebalance_balanced p.1 hl hb (by omega) (by omega)
    exact ⟨hbal, by omega, by omega⟩
  | none =>
    cases removeFirst_eq_none hr'
    cases hl' : l.removeLast with
    | some p =>
      dsimp only
      obtain ⟨hb, hle, hge⟩ := hl.removeLast hl'
      obtain ⟨hbal, hup, hdown, hsame⟩ := rebalance_balanced p.1 hb hr (by omega) (by omega)
      exact ⟨hbal, by omega, by omega⟩
    | none =>
      cases removeLast_eq_none hl'
      exact ⟨trivial, by simp, by simp⟩

theorem Balanced.eraseImpl [DecidableEq T] (el : T) (h : t.Balanced) :
    (t.eraseImpl el).Balanced ∧ (t.eraseImpl el).height ≤ t.height ∧
      t.height ≤ (t.eraseImpl el).height + 1 := by
  induction t with
  | nil => exact ⟨trivial, Nat.le_refl _, Nat.zero_le _⟩
  | node h' l x r ihl ihr =>
    obtain ⟨hl, hr, rfl, h1, h2⟩ := h
    rw [TTreeItem.eraseImpl, height_node]
    split
    · obtain ⟨hbal, hup, hdown⟩ := hl.replacement hr h1 h2
      exact ⟨hbal, by omega, by omega⟩
    · split
      · obtain ⟨hb, hle, hge⟩ := ihl hl
        obtain ⟨hbal, hup, hdown, hsame⟩ := rebalance_balanced x hb hr (by omega) (by omega)
        exact ⟨hbal, by omega, by omega⟩
      · obtain ⟨hb, hle, hge⟩ := ihr hr
        obtain ⟨hbal, hup, hdown, hsame⟩ := rebalance_balanced x hl hb (by omega) (by omega)
        exact ⟨hbal, by omega, by omega⟩

end TTreeItem

/-! ### Trees with their first element -/

namespace TTree

variable {T : Type} {t : TTree T} {el : T}

/-- A search tree in balance, whose `Head_` is its first element. -/
structure Valid (compare : T → T → Prop) (t : TTree T) : Prop where
  sorted : t.toList.Pairwise compare
  head : t.head = t.toList.head?
  balanced : t.root.Balanced

variable {compare : T → T → Prop}

theorem valid_empty : Valid compare ({} : TTree T) := ⟨List.Pairwise.nil, rfl, trivial⟩

/-- Another order in which the elements are sorted. -/
theorem Valid.of_pairwise {compare' : T → T → Prop} (h : t.Valid compare)
    (hs : t.toList.Pairwise compare') : t.Valid compare' :=
  ⟨hs, h.head, h.balanced⟩

variable [DecidableEq T]

theorem erase_toList (hnodup : t.toList.Nodup) (el : T) :
    (t.erase el).toList = t.toList.erase el := by
  rw [erase]
  split
  · exact TTreeItem.toList_eraseImpl hnodup ‹_›
  · rw [List.erase_of_not_mem ‹_›]

/-- `Head_` is brought up to date when its element is erased. -/
theorem erase_head (hnodup : t.toList.Nodup) (hhead : t.head = t.toList.head?) (el : T) :
    (t.erase el).head = (t.toList.erase el).head? := by
  rw [erase]
  by_cases hel : el ∈ t.toList
  · rw [if_pos hel, eraseImpl]
    obtain ⟨x, rest, hx⟩ := List.exists_cons_of_ne_nil (List.ne_nil_of_mem hel)
    rw [hhead, hx, List.head?_cons]
    by_cases heq : x = el
    · subst heq
      obtain ⟨p, r, hlinks, hnext⟩ := TTreeItem.links_head hnodup hx none
      simp only [if_true, hlinks, List.erase_cons_head, ne_eq, not_true_eq_false, if_false]
      rw [← Option.or_none (o := rest.head?), ← hnext]
    · rw [if_neg (by simpa using heq), List.erase_cons_tail (by simpa using heq), List.head?_cons]
  · rw [if_neg hel, List.erase_of_not_mem hel, hhead]

theorem Valid.erase [IsStrictOrder T compare] (h : t.Valid compare) (el : T) :
    (t.erase el).Valid compare := by
  have hnodup : t.toList.Nodup := TTreeItem.nodup_of_sorted h.sorted
  refine ⟨?_, ?_, ?_⟩
  · rw [erase_toList hnodup]
    exact h.sorted.sublist List.erase_sublist
  · rw [erase_toList hnodup, erase_head hnodup h.head]
  · rw [TTree.erase]
    split
    · exact (h.balanced.eraseImpl el).1
    · exact h.balanced

section
variable [DecidableRel compare]

theorem insert_of_notMem (hel : el ∉ t.toList) : t.insert compare el =
    match t.root.place compare el none none with
    | none => t
    | some (parentEl, lastLess) =>
      { root := t.root.attach compare el
        head :=
          match parentEl with
          | none => some el
          | some p => if lastLess = some p ∧ t.head = some p then some el else t.head } := by
  rw [insert, erase, if_neg hel]

/-- `Insert` of a new element: the order of the elements and `Head_`. -/
theorem insert_spec [IsStrictOrder T compare] (h : t.Valid compare) (hel : el ∉ t.toList)
    (htotal : ∀ c ∈ t.toList, compare el c ∨ compare c el) :
    (t.insert compare el).root = t.root.attach compare el ∧
      (t.insert compare el).head = (TAvlTree.insert compare el t.toList).head? := by
  rw [insert_of_notMem hel]
  by_cases hnull : t.root = .nil
  · rw [toList, hnull]
    exact ⟨rfl, rfl⟩
  · have hless : ∀ m ∈ (none : Option T), m ∉ t.toList := by simp
    obtain ⟨q, m, hplace, -, hiff⟩ := TTreeItem.place_spec h.sorted htotal hnull none hless
    rw [hplace]
    refine ⟨rfl, ?_⟩
    have hhead := h.head
    obtain ⟨x, rest, hx⟩ := List.exists_cons_of_ne_nil (mt toList_eq_nil.1 hnull)
    rw [toList, hx] at htotal hhead ⊢
    simp only [hhead]
    rw [hx] at hiff
    by_cases hbelow : ∀ c ∈ x :: rest, compare el c
    · rw [if_pos (hiff.2 hbelow), TAvlTree.insert_of_forall hbelow, List.head?_cons]
    · rw [if_neg (mt hiff.1 hbelow)]
      have hx' : ¬compare el x := by
        intro hlt
        refine hbelow fun c hc => ?_
        rcases List.mem_cons.1 hc with rfl | hc
        · exact hlt
        · have hsorted := h.sorted
          rw [toList, hx] at hsorted
          exact IsTrans.trans el x c hlt ((List.pairwise_cons.1 hsorted).1 c hc)
      rw [TAvlTree.insert, if_neg hx', if_pos ((htotal x List.mem_cons_self).resolve_left hx')]
      rfl

theorem insert_toList [IsStrictOrder T compare] (h : t.Valid compare) (hel : el ∉ t.toList)
    (htotal : ∀ c ∈ t.toList, compare el c ∨ compare c el) :
    (t.insert compare el).toList = TAvlTree.insert compare el t.toList := by
  rw [toList, (insert_spec h hel htotal).1]
  exact TTreeItem.attach_toList h.sorted htotal

theorem Valid.insert [IsStrictOrder T compare] (h : t.Valid compare) (hel : el ∉ t.toList)
    (htotal : ∀ c ∈ t.toList, compare el c ∨ compare c el) :
    (t.insert compare el).Valid compare := by
  obtain ⟨hroot, hhead⟩ := insert_spec h hel htotal
  have hlist := insert_toList h hel htotal
  refine ⟨?_, ?_, ?_⟩
  · rw [hlist]
    exact TAvlTree.insert_pairwise (fun hab hbc => IsTrans.trans _ _ _ hab hbc) htotal h.sorted
  · rw [hhead, hlist]
  · rw [hroot]
    exact (h.balanced.attach el).1

end

end TTree

end Balancer
