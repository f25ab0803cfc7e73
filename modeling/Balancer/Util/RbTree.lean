import Balancer.Theory.LinkedTree

/-!
# Red-black trees

`util/generic/rbtree.h`. A tree is taken as a value of `LinkedTree.Tree` whose nodes hold their
colors, and a node in it together with the way back to the root by `Parent_` is a subtree with a
path. A frame of a path knows on which side the subtree hangs, so that code that is written twice,
for left and for right, is written once here. `RotateLeft` and `RotateRight` are `rotate .left` and
`rotate .right`, and `setInfo` is `if (x) x->Color_ = c`.

Where the code would follow a null pointer, an operation has no result. `Balanced` and `Around` say
what colors and black heights a tree and the surroundings of a subtree have; with them every
operation has a result, and it is balanced again. `toList` is the order of the elements, which
rotations and colors do not change.

`Children_` is left out, it is read by `ByIndex` only. So is `RightMost()`: `IncrementNode` compares
it with the root when it has come to the root from the right, and gives `End()` in either case.
-/

namespace Balancer

open LinkedTree LinkedTree.Tree Path

inductive TRbTreeColor where
  | red
  | black
  deriving DecidableEq, Repr

/-- A node with what hangs below it; `nil` is no node. -/
abbrev TRbTreeNode (T : Type) := Tree T TRbTreeColor

abbrev TRbTreeFrame (T : Type) := Frame T TRbTreeColor

abbrev TRbTreePath (T : Type) := Path T TRbTreeColor

/-- What is around the element of a node. -/
structure TRbTreePlace (T : Type) where
  path : TRbTreePath T
  color : TRbTreeColor
  left : TRbTreeNode T
  right : TRbTreeNode T

open TRbTreeColor

variable {T : Type}

namespace TRbTreeNode

/-- A missing node counts as black. -/
def color : TRbTreeNode T → TRbTreeColor
  | nil => black
  | node c _ _ _ => c

@[simp] theorem color_sided {d : Side} {c : TRbTreeColor} {a b : TRbTreeNode T} {v : T} :
    color (sided d c a v b) = c := by
  cases d <;> rfl

/-! ### The operations -/

/-- `Rebalance(x, root)` -/
def rebalance : TRbTreePath T → TRbTreeNode T → Option (TRbTreeNode T)
  | [], x => some (x.setInfo black)
  | [parent], x =>
    if parent.info = red then none else some ((parent.plug x).setInfo black)
  | parent :: grand :: path, x =>
    if parent.info = red then
      let y := grand.sibling
      if color y = red then
        rebalance path (sided grand.side red ({ parent with info := black }.plug x) grand.val
          (y.setInfo black))
      else
        let p := parent.plug x
        let p := if parent.side = grand.side then p else p.rotate grand.side
        some ((plug path
          ((sided grand.side red (p.setInfo black) grand.val y).rotate grand.side.other)).setInfo
            black)
    else some ((plug (parent :: grand :: path) x).setInfo black)

/-- The body of the loop of `RebalanceForErase` from where `w`, the sibling of `x`, is black. `true`
with a subtree if the loop goes on with it as `x`, `false` if it is left. -/
def borrow (parent : TRbTreeFrame T) (x : TRbTreeNode T) : Option (Bool × TRbTreeNode T) :=
  let d := parent.side
  match parent.sibling.split d with
  | none => none
  | some (_, near, w, far) =>
    if color near = black ∧ color far = black then
      some (true, { parent with sibling := sided d red near w far }.plug x)
    else
      -- a rotation brings a red node to the far side
      let s := if color far = black then (sided d red (near.setInfo black) w far).rotate d.other
        else sided d black near w far
      (s.split d).map fun p => (false, ({ parent with
        info := black
        sibling := sided d parent.info p.2.1 p.2.2.1 (p.2.2.2.setInfo black) }.plug x).rotate d)

/-- The loop of `RebalanceForErase`, with `x` in its place. -/
def rebalanceForErase : TRbTreePath T → TRbTreeNode T → Option (TRbTreeNode T)
  | [], x => some (x.setInfo black)
  | parent :: path, x =>
    if x.color = red then some (plug (parent :: path) (x.setInfo black))
    else
      match parent.sibling.split parent.side with
      | none => none
      | some (red, near, w, far) =>
        -- after the rotation `x_parent` is red below `w`, and the loop ends with it
        (borrow { parent with info := red, sibling := near } x).map fun r =>
          plug (⟨parent.side, black, w, far⟩ :: path) (if r.1 then r.2.setInfo black else r.2)
      | some (black, _, _, _) =>
        (borrow parent x).bind fun r =>
          if r.1 then rebalanceForErase path r.2 else some (plug path r.2)

/-- `MinimumNode` of a node, with the way down to it: its path, color, element and right side. -/
def minimumNode : TRbTreeColor → TRbTreeNode T → T → TRbTreeNode T →
    TRbTreePath T × TRbTreeColor × T × TRbTreeNode T
  | c, nil, v, r => ([], c, v, r)
  | c, node c' l' v' r', v, r =>
    let m := minimumNode c' l' v' r'
    (m.1 ++ [⟨.left, c, v, r⟩], m.2)

/-- The first half of `RebalanceForErase(z)`, for a node with the color `c` and the sides `l` and
`r`: the place and the subtree `x`, and the color of the node that is missing there. With two sides,
the successor of `z` is linked in its place. -/
def relink (path : TRbTreePath T) (c : TRbTreeColor) (l r : TRbTreeNode T) :
    TRbTreePath T × TRbTreeNode T × TRbTreeColor :=
  match l with
  | nil => (path, r, c)
  | node .. =>
    match r with
    | nil => (path, l, c)
    | node c' l' v' r' =>
      let m := minimumNode c' l' v' r'
      (m.1 ++ ⟨.right, c, m.2.2.1, l⟩ :: path, m.2.2.2, m.2.1)

/-- `RebalanceForErase(z)` -/
def eraseAt (path : TRbTreePath T) (c : TRbTreeColor) (l r : TRbTreeNode T) :
    Option (TRbTreeNode T) :=
  let p := relink path c l r
  if p.2.2 = red then some (plug p.1 p.2.1) else rebalanceForErase p.1 p.2.1

/-- The place of the node with the element `z`. -/
def locate [DecidableEq T] (z : T) : TRbTreePath T → TRbTreeNode T → Option (TRbTreePlace T)
  | _, nil => none
  | path, node c l v r =>
    if v = z then some ⟨path, c, l, r⟩
    else (locate z (⟨.left, c, v, r⟩ :: path) l).or (locate z (⟨.right, c, v, l⟩ :: path) r)

/-- The way down of `Insert(val)`. -/
def insertPath (compare : T → T → Bool) (val : T) : TRbTreePath T → TRbTreeNode T → TRbTreePath T
  | path, nil => path
  | path, node c l v r =>
    if compare val v then insertPath compare val (⟨.left, c, v, r⟩ :: path) l
    else insertPath compare val (⟨.right, c, v, l⟩ :: path) r

/-- The loop of `IncrementNode`: up to the first ancestor on the right. `none` is `End()`. -/
def climb : TRbTreePath T → Option T
  | [] => none
  | f :: path =>
    match f.side with
    | .left => some f.val
    | .right => climb path

/-- The element of `MinimumNode(x)`. -/
def minimum : TRbTreeNode T → Option T
  | nil => none
  | node c l v r => some (minimumNode c l v r).2.2.1

/-- `IncrementNode` of the node in the place `path`, with the right side `r`. -/
def incrementAt (path : TRbTreePath T) (r : TRbTreeNode T) : Option T :=
  match r with
  | nil => climb path
  | node .. => r.minimum

/-- `LeftMost()` after `RebalanceForErase(z)`; `none` is the header. -/
def leftMostForErase [DecidableEq T] (leftMost : Option T) (z : T) (path : TRbTreePath T)
    (l r : TRbTreeNode T) : Option T :=
  match l, r with
  | node .., node .. => leftMost
  | _, _ =>
    if leftMost = some z then
      match r with
      | nil => path.head?.map Frame.val
      | node .. => r.minimum
    else leftMost

/-- `LeftMost()` after `InsertImpl` has linked `val` in the place `path`. -/
def leftMostForInsert [DecidableEq T] (leftMost : Option T) (val : T) (path : TRbTreePath T) :
    Option T :=
  match path with
  | [] => some val
  | parent :: _ => if parent.side = .left ∧ leftMost = some parent.val then some val else leftMost

/-! ### The order is kept -/

theorem toList_plug_congr (path : TRbTreePath T) {t t' : TRbTreeNode T} (h : t.toList = t'.toList) :
    (path.plug t).toList = (path.plug t').toList := by
  rw [toList_plug, toList_plug, h]

theorem toList_rebalance {path : TRbTreePath T} {x t : TRbTreeNode T}
    (h : rebalance path x = some t) : t.toList = (path.plug x).toList := by
  fun_induction rebalance path x with
  | case1 x =>
    cases h
    exact toList_setInfo ..
  | case2 => cases h
  | case3 =>
    cases h
    exact toList_setInfo ..
  | case4 parent grand path x hp y hy ih =>
    have hup : ({ parent with info := black }.plug x).toList = (parent.plug x).toList :=
      toList_sided _ rfl rfl
    rw [ih h]
    exact toList_plug_congr path (toList_sided _ hup (toList_setInfo _ _))
  | case5 parent grand path x hp y hy p p' =>
    cases h
    have hp' : p'.toList = (parent.plug x).toList := by
      simp only [p', p]
      split
      · rfl
      · exact toList_rotate ..
    rw [toList_setInfo]
    apply toList_plug_congr path
    rw [toList_rotate]
    exact toList_sided _ ((toList_setInfo _ _).trans hp') rfl
  | case6 =>
    cases h
    exact toList_setInfo ..

theorem toList_borrow {parent : TRbTreeFrame T} {x t : TRbTreeNode T} {more : Bool}
    (h : borrow parent x = some (more, t)) : t.toList = (parent.plug x).toList := by
  unfold borrow at h
  simp only at h
  split at h
  · cases h
  · next c near w far hs =>
    have hsib := eq_of_split hs
    split at h
    · cases h
      refine toList_sided _ rfl ?_
      rw [hsib]
      exact toList_sided _ rfl rfl
    · obtain ⟨⟨c', near', w', far'⟩, hs', heq⟩ := Option.map_eq_some_iff.1 h
      cases heq
      rw [toList_rotate]
      refine toList_sided _ rfl ?_
      have hrot : (sided parent.side c' near' w' far').toList =
          (sided parent.side c near w far).toList := by
        rw [← eq_of_split hs']
        split
        · rw [toList_rotate]
          exact toList_sided _ (toList_setInfo _ _) rfl
        · exact toList_sided _ rfl rfl
      rw [hsib, ← hrot]
      exact toList_sided _ rfl (toList_setInfo _ _)

theorem toList_rebalanceForErase {path : TRbTreePath T} {x t : TRbTreeNode T}
    (h : rebalanceForErase path x = some t) : t.toList = (path.plug x).toList := by
  induction path generalizing x with
  | nil =>
    cases h
    exact toList_setInfo ..
  | cons parent path ih =>
    rw [rebalanceForErase] at h
    split at h
    · cases h
      exact toList_plug_congr _ (toList_setInfo ..)
    · split at h
      · cases h
      · next near w far hs =>
        obtain ⟨⟨more, t'⟩, hb, rfl⟩ := Option.map_eq_some_iff.1 h
        have ht' : (if more then t'.setInfo black else t').toList =
            (Frame.plug { parent with info := red, sibling := near } x).toList := by
          rw [← toList_borrow hb]
          split
          · exact toList_setInfo ..
          · rfl
        -- the rotation of `x_parent` and `w`
        have hrot : (sided parent.side black
            (Frame.plug { parent with info := red, sibling := near } x)
            w far).toList = (parent.plug x).toList := by
          have hsib : parent.sibling = _ := eq_of_split hs
          rw [Frame.plug, Frame.plug, hsib, ← rotate_sided, toList_rotate]
          exact toList_sided _ rfl (toList_sided _ rfl rfl)
        refine toList_plug_congr path (Eq.trans ?_ hrot)
        exact toList_sided _ ht' rfl
      · obtain ⟨⟨more, t'⟩, hb, hr⟩ := Option.bind_eq_some_iff.1 h
        have ht' : t'.toList = (parent.plug x).toList := toList_borrow hb
        split at hr
        · rw [ih hr]
          exact toList_plug_congr path ht'
        · cases hr
          exact toList_plug_congr path ht'

/-! ### The balance is kept -/

/-- No red node has a red child, and every way down passes `n` black nodes. -/
inductive Balanced : TRbTreeNode T → TRbTreeColor → Nat → Prop where
  | nil : Balanced nil black 0
  | red {l r : TRbTreeNode T} {v : T} {n : Nat} : Balanced l black n → Balanced r black n →
      Balanced (node red l v r) red n
  | black {l r : TRbTreeNode T} {v : T} {c c' : TRbTreeColor} {n : Nat} : Balanced l c n →
    Balanced r c' n →
      Balanced (node black l v r) black (n + 1)

/-- The surroundings in which a subtree of the color `c` and the black height `n` makes a balanced
tree. -/
inductive Around : TRbTreePath T → TRbTreeColor → Nat → Prop where
  | root {n : Nat} : Around [] black n
  | red {path : TRbTreePath T} {d : Side} {v : T} {s : TRbTreeNode T} {n : Nat} :
    Balanced s black n →
      Around path red n → Around (⟨d, red, v, s⟩ :: path) black n
  | black {path : TRbTreePath T} {d : Side} {v : T} {s : TRbTreeNode T} {c c' : TRbTreeColor}
    {n : Nat} :
      Balanced s c' n → Around path black (n + 1) → Around (⟨d, black, v, s⟩ :: path) c n

variable {d : Side} {v w : T} {a b t x : TRbTreeNode T} {c c₁ c₂ : TRbTreeColor} {n : Nat}
  {path : TRbTreePath T}

namespace Balanced

theorem color_eq (h : Balanced t c n) : t.color = c := by
  cases h <;> rfl

theorem sided_red (ha : Balanced a .black n) (hb : Balanced b .black n) :
    Balanced (sided d .red a v b) .red n := by
  cases d
  · exact .red ha hb
  · exact .red hb ha

theorem sided_black (ha : Balanced a c₁ n) (hb : Balanced b c₂ n) :
    Balanced (sided d .black a v b) .black (n + 1) := by
  cases d
  · exact .black ha hb
  · exact .black hb ha

theorem setInfo_black (h : Balanced t c n) : ∃ m, Balanced (t.setInfo .black) .black m ∧
    (c = .red → m = n + 1) := by
  cases h with
  | nil => exact ⟨0, .nil, fun h => absurd h (by decide)⟩
  | red hl hr => exact ⟨_, .black hl hr, fun _ => rfl⟩
  | black hl hr => exact ⟨_, .black hl hr, fun h => absurd h (by decide)⟩

/-- A red node by its sides. -/
theorem exists_red (d : Side) (h : Balanced t .red n) :
    ∃ a v b, t = sided d .red a v b ∧ Balanced a .black n ∧ Balanced b .black n := by
  cases h with
  | red hl hr =>
    cases d
    · exact ⟨_, _, _, rfl, hl, hr⟩
    · exact ⟨_, _, _, rfl, hr, hl⟩

/-- A black node by its sides. -/
theorem exists_black (d : Side) (h : Balanced t .black (n + 1)) :
    ∃ a v b c₁ c₂, t = sided d .black a v b ∧ Balanced a c₁ n ∧ Balanced b c₂ n := by
  cases h with
  | black hl hr =>
    cases d
    · exact ⟨_, _, _, _, _, rfl, hl, hr⟩
    · exact ⟨_, _, _, _, _, rfl, hr, hl⟩

end Balanced

/-- The black height of a node of the color `c` over subtrees of the height `n`. -/
def heightOver (c : TRbTreeColor) (n : Nat) : Nat :=
  match c with
  | .red => n
  | .black => n + 1

theorem Balanced.sided_over (c : TRbTreeColor) (ha : Balanced a .black n)
    (hb : Balanced b .black n) : Balanced (sided d c a v b) c (heightOver c n) := by
  cases c
  · exact ha.sided_red hb
  · exact ha.sided_black hb

namespace Around

theorem plug (h : Around path c n) (ht : Balanced t c n) :
    ∃ m, Balanced (path.plug t) .black m := by
  induction h generalizing t with
  | root => exact ⟨_, ht⟩
  | red hs _ ih => exact ih (ht.sided_red hs)
  | black hs _ ih => exact ih (ht.sided_black hs)

/-- Where a red subtree hangs, a black one of the same height may hang too. -/
theorem to_black (h : Around path c n) : Around path .black n := by
  cases h with
  | root => exact .root
  | red hs hp => exact .red hs hp
  | black hs hp => exact .black hs hp

end Around

/-- The rotations of `Rebalance`, for a red node `x` below a red one. -/
theorem balanced_rotations {s y : TRbTreeNode T} {u : T} {d d' : Side} (hx : Balanced x .red n)
    (hs : Balanced s .black n) (hy : Balanced y .black n) :
    Balanced ((sided d .red ((if d' = d then sided d' .red x v s else
      (sided d' .red x v s).rotate d).setInfo
      .black) u y).rotate d.other) .black (n + 1) := by
  split
  · next h =>
    subst h
    rw [setInfo_sided, rotate_other_sided]
    exact hx.sided_black (hs.sided_red hy)
  · next h =>
    have hd : d' = d.other := by revert h; cases d <;> cases d' <;> decide
    obtain ⟨a, w, b, rfl, ha, hb⟩ := hx.exists_red d
    rw [hd, sided_other, rotate_sided, setInfo_sided, rotate_other_sided]
    exact (hs.sided_red ha).sided_black (hb.sided_red hy)

/-- A red subtree, in a place for a black one, is brought in. -/
theorem balanced_rebalance (path : TRbTreePath T) (x : TRbTreeNode T) :
    ∀ n, Around path .black n → Balanced x .red n → ∃ t m, rebalance path x = some t ∧
      Balanced t .black m := by
  fun_induction rebalance path x with
  | case1 x =>
    intro n h hx
    obtain ⟨m, hm, -⟩ := hx.setInfo_black
    exact ⟨_, m, rfl, hm⟩
  | case2 parent x hp =>
    intro n h hx
    -- the root is black
    cases h with
    | red _ hroot => cases hroot
    | black => cases hp
  | case3 parent x hp =>
    intro n h hx
    cases h with
    | red => exact absurd rfl hp
    | black hs hroot =>
      exact ⟨_, _, rfl, by rw [Frame.plug, setInfo_sided]; exact hx.sided_black hs⟩
  | case4 parent grand path x hp y hy ih =>
    intro n h hx
    cases h with
    | black => cases hp
    | red hs hg =>
      cases hg with
      | black hsib hpath =>
        obtain rfl := hsib.color_eq.symm.trans hy
        obtain ⟨m, hm, hmn⟩ := hsib.setInfo_black
        obtain rfl := hmn rfl
        exact ih _ hpath ((hx.sided_black hs).sided_red hm)
  | case5 parent grand path x hp y hy p p' =>
    intro n h hx
    cases h with
    | black => cases hp
    | red hs hg =>
      cases hg with
      | @black _ _ _ _ _ c' _ hsib hpath =>
        cases c' with
        | red => exact absurd hsib.color_eq hy
        | black =>
          obtain ⟨m, hm⟩ := hpath.plug (balanced_rotations hx hs hsib)
          obtain ⟨m', hm', -⟩ := hm.setInfo_black
          exact ⟨_, m', rfl, hm'⟩
  | case6 parent grand path x hp =>
    intro n h hx
    cases h with
    | red => exact absurd rfl hp
    | black hs hpath =>
      obtain ⟨m, hm⟩ := hpath.plug (hx.sided_black hs)
      obtain ⟨m', hm', -⟩ := hm.setInfo_black
      exact ⟨_, m', rfl, hm'⟩

theorem rebalanceForErase_red (h : x.color = .red) :
    rebalanceForErase path x = some (path.plug (x.setInfo .black)) := by
  cases path with
  | nil => rfl
  | cons parent path => rw [rebalanceForErase, if_pos h]

/-- `x` is a black node short of its black sibling. The sibling becomes red, and the subtree of both
is short of a black node; or a red node below the sibling takes the place. -/
theorem borrow_balanced {near far : TRbTreeNode T} (c : TRbTreeColor) (hnear : Balanced near c₁ n)
    (hfar : Balanced far c₂ n) (hx : Balanced x .black n) :
    (∃ s, borrow ⟨d, c, v, sided d .black near w far⟩ x = some (true, sided d c x v s) ∧
      Balanced s .red n) ∨
    ∃ t, borrow ⟨d, c, v, sided d .black near w far⟩ x = some (false, t) ∧
      Balanced t c (heightOver c (n + 1)) := by
  simp only [borrow, split_sided, hnear.color_eq, hfar.color_eq]
  cases c₂ with
  | red =>
    obtain ⟨m, hm, hmn⟩ := hfar.setInfo_black
    obtain rfl := hmn rfl
    refine .inr ⟨_, by
      simp only [reduceCtorEq, and_false, if_false, split_sided, Option.map_some]
      rfl, ?_⟩
    rw [Frame.plug, rotate_sided]
    exact (hx.sided_black hnear).sided_over c hm
  | black =>
    cases c₁ with
    | black => exact .inl ⟨_, by simp only [and_self, if_true]; rfl, hnear.sided_red hfar⟩
    | red =>
      obtain ⟨a, u, b, rfl, ha, hb⟩ := hnear.exists_red d
      refine .inr ⟨_, by
        simp only [reduceCtorEq, false_and, if_false, if_true, setInfo_sided, rotate_other_sided,
          split_sided, Option.map_some]; rfl, ?_⟩
      rw [Frame.plug, rotate_sided]
      exact (hx.sided_black ha).sided_over c (hb.sided_black hfar)

/-- A place for a black node of the height `n + 1` gets a subtree of the height `n`. -/
theorem balanced_rebalanceForErase (h : Around path .black (n + 1)) (hx : Balanced x c n) :
    ∃ t m, rebalanceForErase path x = some t ∧ Balanced t .black m := by
  induction path generalizing x c n with
  | nil =>
    obtain ⟨m, hm, -⟩ := hx.setInfo_black
    exact ⟨_, m, rfl, hm⟩
  | cons parent path ih =>
    rw [rebalanceForErase, hx.color_eq]
    cases c with
    | red =>
      obtain ⟨m, hm, hmn⟩ := hx.setInfo_black
      obtain rfl := hmn rfl
      obtain ⟨k, hk⟩ := h.plug hm
      exact ⟨_, k, if_pos rfl, hk⟩
    | black =>
      rw [if_neg (by decide)]
      cases h with
      | @red _ d v s _ hs hpath =>
        obtain ⟨near, w, far, c₁, c₂, rfl, hnear, hfar⟩ := hs.exists_black d
        simp only [split_sided]
        rcases borrow_balanced (v := v) .red hnear hfar hx with ⟨s, hb, hs⟩ | ⟨t, hb, ht⟩
        · rw [hb]
          -- `x_parent` is red, so that the loop ends with it
          obtain ⟨k, hk⟩ : ∃ k, Balanced (plug path (sided d .black x v s)) .black k :=
            hpath.to_black.plug (hx.sided_black hs)
          refine ⟨_, k, rebalanceForErase_red color_sided, ?_⟩
          rwa [setInfo_sided]
        · obtain ⟨k, hk⟩ := hpath.plug ht
          exact ⟨_, k, by rw [hb]; rfl, hk⟩
      | @black _ d v s _ c' _ hs hpath =>
        cases c' with
        | black =>
          obtain ⟨near, w, far, c₁, c₂, rfl, hnear, hfar⟩ := hs.exists_black d
          simp only [split_sided]
          rcases borrow_balanced (v := v) .black hnear hfar hx with ⟨s, hb, hs⟩ | ⟨t, hb, ht⟩
          · obtain ⟨t, m, ht, hm⟩ := ih hpath (hx.sided_black hs)
            exact ⟨t, m, by rw [hb]; exact ht, hm⟩
          · obtain ⟨k, hk⟩ := hpath.plug ht
            exact ⟨_, k, by rw [hb]; rfl, hk⟩
        | red =>
          obtain ⟨near, w, far, rfl, hnear, hfar⟩ := hs.exists_red d
          simp only [split_sided]
          obtain ⟨near', u, far', c₁, c₂, rfl, hnear', hfar'⟩ := hnear.exists_black d
          have habove : Around (⟨d, .black, w, far⟩ :: path) .red (n + 1) := .black hfar hpath
          rcases borrow_balanced (v := v) .red hnear' hfar' hx with ⟨s, hb, hs⟩ | ⟨t, hb, ht⟩
          · rw [hb]
            obtain ⟨k, hk⟩ := habove.to_black.plug (hx.sided_black hs)
            exact ⟨_, k, rfl, by simpa using hk⟩
          · obtain ⟨k, hk⟩ := habove.plug ht
            exact ⟨_, k, by rw [hb]; rfl, hk⟩

/-! ### Places of nodes -/

theorem minimumNode_spec (c : TRbTreeColor) (l : TRbTreeNode T) (v : T) (r : TRbTreeNode T)
    (path : TRbTreePath T) :
    Path.before ((minimumNode c l v r).1 ++ path) = path.before ∧
    (node c l v r).toList ++ path.after = (minimumNode c l v r).2.2.1 ::
      ((minimumNode c l v r).2.2.2.toList ++ Path.after ((minimumNode c l v r).1 ++ path)) := by
  induction l generalizing c v r path with
  | nil => exact ⟨rfl, by simp [minimumNode, toList]⟩
  | node c' l' v' r' ih _ =>
    obtain ⟨hbefore, hafter⟩ := ih c' v' r' (⟨.left, c, v, r⟩ :: path)
    simp only [minimumNode, List.append_assoc, List.singleton_append]
    refine ⟨hbefore, ?_⟩
    rw [← hafter]
    simp [toList, Path.after]

theorem minimum_eq (t : TRbTreeNode T) : t.minimum = t.toList.head? := by
  cases t with
  | nil => rfl
  | node c l v r =>
    have h := (minimumNode_spec c l v r []).2
    rw [Path.after, List.append_nil] at h
    rw [minimum, h]
    rfl

/-- Without `z` the elements are those in front of it, on its sides and behind it. -/
theorem toList_relink (path : TRbTreePath T) (c : TRbTreeColor) (l r : TRbTreeNode T) :
    (plug (relink path c l r).1 (relink path c l r).2.1).toList =
      path.before ++ (l.toList ++ r.toList) ++ path.after := by
  rw [toList_plug]
  cases l with
  | nil => rfl
  | node cl ll vl rl =>
    cases r with
    | nil => simp [relink, toList]
    | node c' l' v' r' =>
      obtain ⟨hbefore, hafter⟩ := minimumNode_spec c' l' v' r'
        (⟨.right, c, (minimumNode c' l' v' r').2.2.1, node cl ll vl rl⟩ :: path)
      simp only [relink]
      rw [hbefore]
      simp only [Path.before, Path.after] at hafter ⊢
      rw [List.append_assoc, List.append_assoc, List.append_assoc, List.append_assoc,
        List.append_assoc, hafter]
      rfl

theorem toList_eraseAt {path : TRbTreePath T} {c : TRbTreeColor} {l r t : TRbTreeNode T}
    (h : eraseAt path c l r = some t) :
    t.toList = path.before ++ (l.toList ++ r.toList) ++ path.after := by
  rw [← toList_relink path c l r]
  unfold eraseAt at h
  simp only at h
  split at h
  · cases h
    rfl
  · exact toList_rebalanceForErase h

theorem climb_eq (path : TRbTreePath T) : climb path = path.after.head? := by
  induction path with
  | nil => rfl
  | cons f path ih =>
    obtain ⟨side, c, v, s⟩ := f
    cases side with
    | left => rfl
    | right => exact ih

theorem incrementAt_eq (path : TRbTreePath T) (r : TRbTreeNode T) :
    incrementAt path r = (r.toList ++ path.after).head? := by
  cases r with
  | nil => exact climb_eq path
  | node c l v r =>
    show minimum (node c l v r) = _
    rw [minimum_eq, List.head?_append_of_ne_nil]
    simp [toList]

/-- Below a node. -/
theorem Around.down (w : T) (h : Around path c n) (ht : Balanced (sided d c a v b) c n) :
    ∃ c₁ n₁, Around (⟨d, c, w, b⟩ :: path) c₁ n₁ ∧ Balanced a c₁ n₁ := by
  cases c with
  | red =>
    obtain ⟨a', v', b', heq, ha, hb⟩ := ht.exists_red d
    cases d <;> cases heq <;> exact ⟨_, _, .red hb h, ha⟩
  | black =>
    cases n with
    | zero => cases d <;> cases ht
    | succ n =>
      obtain ⟨a', v', b', c₁, c₂, heq, ha, hb⟩ := ht.exists_black d
      cases d <;> cases heq <;> exact ⟨_, _, .black hb h, ha⟩

theorem around_minimumNode {l r : TRbTreeNode T} (h : Around path c n)
    (ht : Balanced (node c l v r) c n) :
    ∃ k, Around ((minimumNode c l v r).1 ++ path) (minimumNode c l v r).2.1 k ∧
      Balanced (node (minimumNode c l v r).2.1 nil (minimumNode c l v r).2.2.1
        (minimumNode c l v r).2.2.2) (minimumNode c l v r).2.1 k := by
  induction l generalizing c v r n path with
  | nil => exact ⟨n, h, ht⟩
  | node c' l' v' r' ih _ =>
    obtain ⟨c₁, n₁, h₁, hl⟩ := h.down (d := .left) v ht
    obtain rfl : c' = c₁ := hl.color_eq
    obtain ⟨k, hk, hbal⟩ := ih h₁ hl
    refine ⟨k, ?_, hbal⟩
    simp only [minimumNode, List.append_assoc, List.singleton_append]
    exact hk

/-- The end of `RebalanceForErase`, for a node that has at most the one side `x`. -/
theorem balanced_unlinked {y : T} (h : Around path c n) (hy : Balanced (sided d c nil y x) c n) :
    ∃ t m, (if c = .red then some (path.plug x) else rebalanceForErase path x) = some t ∧
      Balanced t .black m := by
  cases c with
  | red =>
    obtain ⟨a', v', b', heq, ha, hb⟩ := hy.exists_red d
    have hx : Balanced x .black n := by cases d <;> cases heq <;> exact hb
    obtain ⟨m, hm⟩ := h.to_black.plug hx
    exact ⟨_, m, if_pos rfl, hm⟩
  | black =>
    cases n with
    | zero => cases d <;> cases hy
    | succ n =>
      obtain ⟨a', v', b', c₁, c₂, heq, ha, hb⟩ := hy.exists_black d
      have hx : Balanced x c₂ n := by cases d <;> cases heq <;> exact hb
      obtain ⟨t, m, ht, hm⟩ := balanced_rebalanceForErase h hx
      exact ⟨t, m, by rw [if_neg (by decide), ht], hm⟩

theorem balanced_eraseAt {l r : TRbTreeNode T} {z : T} (h : Around path c n)
    (ht : Balanced (node c l z r) c n) :
    ∃ t m, eraseAt path c l r = some t ∧ Balanced t .black m := by
  cases l with
  | nil => exact balanced_unlinked (d := .left) h ht
  | node cl ll vl rl =>
    cases r with
    | nil => exact balanced_unlinked (d := .right) h ht
    | node c' l' v' r' =>
      obtain ⟨c₁, n₁, h₁, hr⟩ := h.down (d := .right) (minimumNode c' l' v' r').2.2.1 ht
      obtain rfl : c' = c₁ := hr.color_eq
      obtain ⟨k, hk, hbal⟩ := around_minimumNode h₁ hr
      exact balanced_unlinked (d := .left) hk hbal

section Locate

variable [DecidableEq T] {z : T}

theorem locate_some {l r : TRbTreeNode T} {p : TRbTreePath T}
    (h : locate z path t = some ⟨p, c, l, r⟩) : p.plug (node c l z r) = path.plug t ∧
      ∀ c' n, Around path c' n → Balanced t c' n → ∃ n', Around p c n' ∧
      Balanced (node c l z r) c n' := by
  induction t generalizing path with
  | nil => cases h
  | node c₀ l₀ v₀ r₀ ihl ihr =>
    rw [locate] at h
    split at h
    · next heq =>
      subst heq
      cases h
      refine ⟨rfl, fun c' n hpath ht => ?_⟩
      obtain rfl : c = c' := ht.color_eq
      exact ⟨n, hpath, ht⟩
    · rcases Option.or_eq_some_iff.1 h with h | ⟨-, h⟩
      · obtain ⟨hplug, hbal⟩ := ihl h
        refine ⟨hplug, fun c' n hpath ht => ?_⟩
        obtain rfl : c₀ = c' := ht.color_eq
        obtain ⟨c₁, n₁, h₁, hl⟩ := hpath.down (d := .left) v₀ ht
        exact hbal c₁ n₁ h₁ hl
      · obtain ⟨hplug, hbal⟩ := ihr h
        refine ⟨hplug, fun c' n hpath ht => ?_⟩
        obtain rfl : c₀ = c' := ht.color_eq
        obtain ⟨c₁, n₁, h₁, hr⟩ := hpath.down (d := .right) v₀ ht
        exact hbal c₁ n₁ h₁ hr

theorem locate_isSome (path : TRbTreePath T) (h : z ∈ t.toList) : (locate z path t).isSome := by
  induction t generalizing path with
  | nil => cases h
  | node c l v r ihl ihr =>
    rw [locate]
    split
    · rfl
    · next hne =>
      rw [Option.isSome_or, Bool.or_eq_true]
      simp only [toList, List.mem_append, List.mem_cons] at h
      rcases h with h | rfl | h
      · exact .inl (ihl _ h)
      · exact absurd rfl hne
      · exact .inr (ihr _ h)

end Locate

/-! ### The way down of `Insert` -/

theorem plug_insertPath (compare : T → T → Bool) (val : T) (path : TRbTreePath T)
    (t : TRbTreeNode T) : (insertPath compare val path t).plug nil = path.plug t := by
  induction t generalizing path with
  | nil => rfl
  | node c l v r ihl ihr =>
    rw [insertPath]
    split
    · exact ihl _
    · exact ihr _

theorem around_insertPath (compare : T → T → Bool) (val : T) (h : Around path c n)
    (ht : Balanced t c n) : Around (insertPath compare val path t) .black 0 := by
  induction t generalizing path c n with
  | nil =>
    cases ht
    exact h
  | node c₀ l v r ihl ihr =>
    obtain rfl : c₀ = c := ht.color_eq
    rw [insertPath]
    split
    · obtain ⟨c₁, n₁, h₁, hl⟩ := h.down (d := .left) v ht
      exact ihl h₁ hl
    · obtain ⟨c₁, n₁, h₁, hr⟩ := h.down (d := .right) v ht
      exact ihr h₁ hr

/-- The new element is linked as a red node without sides. -/
def insertAt (path : TRbTreePath T) (val : T) : Option (TRbTreeNode T) :=
  rebalance path (node .red nil val nil)

theorem balanced_insertAt (val : T) (h : Around path .black 0) :
    ∃ t m, insertAt path val = some t ∧ Balanced t .black m :=
  balanced_rebalance path _ 0 h (.red .nil .nil)

theorem toList_insertAt {val : T} (h : insertAt path val = some t) :
    t.toList = path.before ++ val :: path.after := by
  rw [toList_rebalance h, toList_plug]
  simp [toList]

/-! ### `LeftMost()` -/

theorem after_eq_of_before_eq_nil (h : path.before = []) :
    path.after.head? = path.head?.map Frame.val := by
  cases path with
  | nil => rfl
  | cons f path =>
    obtain ⟨side, c, v, s⟩ := f
    cases side with
    | left => rfl
    | right => simp [Path.before] at h

section LeftMost

variable [DecidableEq T]

theorem leftMostForErase_eq {z : T} {l r : TRbTreeNode T}
    (hnodup : (path.before ++ (l.toList ++ z :: r.toList) ++ path.after).Nodup) :
    leftMostForErase (path.before ++ (l.toList ++ z :: r.toList) ++ path.after).head? z path l r =
      (path.before ++ (l.toList ++ r.toList) ++ path.after).head? := by
  -- what stands in front of `z`
  rcases hpre : path.before ++ l.toList with _ | ⟨u, pre⟩
  · obtain ⟨hbefore, hl⟩ := List.append_eq_nil_iff.1 hpre
    obtain rfl := toList_eq_nil.1 hl
    rw [hbefore]
    cases r with
    | nil =>
      simp only [leftMostForErase, toList, List.nil_append, List.append_nil, List.cons_append,
        List.head?_cons,
        if_true]
      exact (after_eq_of_before_eq_nil hbefore).symm
    | node c' l' v' r' =>
      simp only [leftMostForErase, hl, List.nil_append, List.cons_append, List.head?_cons, if_true]
      rw [minimum_eq, List.head?_append_of_ne_nil]
      simp [toList]
  · have hne : u ≠ z := by
      rintro rfl
      rw [← List.append_assoc, hpre] at hnodup
      simp at hnodup
    have hhead : (path.before ++ (l.toList ++ z :: r.toList) ++ path.after).head? = some u := by
      rw [← List.append_assoc, hpre]
      rfl
    have hhead' : (path.before ++ (l.toList ++ r.toList) ++ path.after).head? = some u := by
      rw [← List.append_assoc, hpre]
      rfl
    rw [hhead, hhead']
    unfold leftMostForErase
    split
    · rfl
    · rw [if_neg (by simpa using hne)]

theorem leftMostForInsert_eq {val : T} (hnodup : (path.before ++ path.after).Nodup) :
    leftMostForInsert (path.before ++ path.after).head? val path =
      (path.before ++ val :: path.after).head? := by
  cases path with
  | nil => rfl
  | cons f path =>
    obtain ⟨side, c, v, s⟩ := f
    cases side with
    | right =>
      rw [leftMostForInsert, if_neg (by simp)]
      simp [Path.before]
    | left =>
      rcases hpre : Path.before path with _ | ⟨u, pre⟩
      · simp [leftMostForInsert, Path.before, Path.after, hpre]
      · have hne : u ≠ v := by
          rintro rfl
          simp [Path.before, Path.after, hpre] at hnodup
        simp [leftMostForInsert, Path.before, Path.after, hpre, hne]

end LeftMost

end TRbTreeNode

open TRbTreeNode

/-! ### The tree -/

/-- A strict order with ties, as `KeyCompare_` needs it. -/
structure TRbTreeCompare (T : Type) where
  compare : T → T → Bool
  asymm : ∀ a b, compare a b → ¬compare b a
  trans : ∀ a b c, ¬compare b a → ¬compare c b → ¬compare c a

/-- `a` may stand in front of `b`. -/
def TRbTreeCompare.NotAfter (cmp : TRbTreeCompare T) (a b : T) : Prop := ¬cmp.compare b a

/-- The tree with what `Init`, `Insert` and `EraseImpl` keep. `none` is the header. -/
structure TRbTree (cmp : TRbTreeCompare T) where
  root : TRbTreeNode T := .nil
  leftMost : Option T := none
  balanced : ∃ n, Balanced root black n
  nodup : root.toList.Nodup
  leftMost_eq : leftMost = root.toList.head?
  sorted : root.toList.Pairwise cmp.NotAfter

namespace TRbTree

variable {cmp : TRbTreeCompare T}

/-- `Init` -/
def empty : TRbTree cmp where
  balanced := ⟨0, .nil⟩
  nodup := .nil
  leftMost_eq := rfl
  sorted := .nil

def toList (t : TRbTree cmp) : List T := t.root.toList

/-- `Begin()` -/
def begin (t : TRbTree cmp) : Option T := t.leftMost

theorem begin_eq (t : TRbTree cmp) : t.begin = t.toList.head? := t.leftMost_eq

section UnLink

variable [DecidableEq T]

/-- An element of the tree, in its place. -/
theorem exists_locate (t : TRbTree cmp) {z : T} (h : z ∈ t.toList) :
    ∃ p c l r, locate z [] t.root = some ⟨p, c, l, r⟩ ∧
      t.toList = p.before ++ (l.toList ++ z :: r.toList) ++ p.after ∧
      ∃ n, Around p c n ∧ Balanced (node c l z r) c n := by
  obtain ⟨⟨p, c, l, r⟩, hloc⟩ := Option.isSome_iff_exists.1 (locate_isSome [] h)
  obtain ⟨hplug, hbal⟩ := locate_some hloc
  obtain ⟨n, hn⟩ := t.balanced
  refine ⟨p, c, l, r, hloc, ?_, hbal _ _ .root hn⟩
  show t.root.toList = _
  rw [← show p.plug (node c l z r) = t.root from hplug, toList_plug]
  rfl

/-- `++it` -/
def increment (t : TRbTree cmp) (z : T) : Option T :=
  (locate z [] t.root).bind fun p => incrementAt p.path p.right

theorem increment_eq (t : TRbTree cmp) {pre post : List T} {z : T}
    (h : t.toList = pre ++ z :: post) : t.increment z = post.head? := by
  obtain ⟨p, c, l, r, hloc, hlist, -⟩ := t.exists_locate (z := z) (by simp [h])
  have hnodup : (pre ++ z :: post).Nodup := h ▸ t.nodup
  have hpost : post = r.toList ++ p.after := by
    have heq : pre ++ z :: post = (p.before ++ l.toList) ++ z :: (r.toList ++ p.after) := by
      rw [← h, hlist]
      simp
    exact (List.append_cons_inj_of_notMem (by grind) (by grind)).1 heq |>.2.2
  rw [increment, hloc, Option.bind_some, incrementAt_eq, hpost]

theorem increment_head (t : TRbTree cmp) {z : T} {post : List T} (h : t.toList = z :: post) :
    t.increment z = post.head? :=
  t.increment_eq (h.trans (List.nil_append _).symm)

/-- What `EraseImpl` does to the root and to `LeftMost()`. -/
def eraseImpl (t : TRbTree cmp) (z : T) : Option (TRbTreeNode T × Option T) :=
  (locate z [] t.root).bind fun p =>
    (eraseAt p.path p.color p.left p.right).map fun root =>
      (root, leftMostForErase t.leftMost z p.path p.left p.right)

/-- Nothing is followed that is nil, and `z` alone is gone. -/
theorem eraseImpl_spec (t : TRbTree cmp) {z : T} (h : z ∈ t.toList) :
    ∃ root, t.eraseImpl z = some (root, root.toList.head?) ∧ (∃ n, Balanced root black n) ∧
      root.toList = t.toList.erase z := by
  obtain ⟨p, c, l, r, hloc, hlist, n, hpath, hbal⟩ := t.exists_locate h
  obtain ⟨root, m, herase, hm⟩ := balanced_eraseAt hpath hbal
  have hnodup : (p.before ++ (l.toList ++ z :: r.toList) ++ p.after).Nodup := hlist ▸ t.nodup
  have hroot := toList_eraseAt herase
  refine ⟨root, ?_, ⟨m, hm⟩, ?_⟩
  · rw [eraseImpl, hloc, Option.bind_some, herase, Option.map_some, t.leftMost_eq,
      show t.root.toList = _ from hlist, leftMostForErase_eq hnodup, hroot]
  · rw [hroot, hlist]
    have hz : z ∉ p.before ++ l.toList := by
      have := hnodup
      grind
    have heq : p.before ++ (l.toList ++ z :: r.toList) ++ p.after =
        (p.before ++ l.toList) ++ z :: (r.toList ++ p.after) := by simp
    rw [heq, List.erase_append_right _ hz, List.erase_cons_head]
    simp

theorem eraseImpl_isSome (t : TRbTree cmp) {z : T} (h : z ∈ t.toList) : (t.eraseImpl z).isSome := by
  obtain ⟨root, herase, -⟩ := t.eraseImpl_spec h
  rw [herase]
  rfl

theorem eraseImpl_get (t : TRbTree cmp) {z : T} (h : z ∈ t.toList) {p : TRbTreeNode T × Option T}
    (hp : (t.eraseImpl z).get (t.eraseImpl_isSome h) = p) :
    (∃ n, Balanced p.1 black n) ∧ p.1.toList = t.toList.erase z ∧ p.2 = p.1.toList.head? := by
  obtain ⟨root, herase, hbal, hlist⟩ := t.eraseImpl_spec h
  have hroot : p = (root, root.toList.head?) := by
    rw [← hp]
    simp only [herase, Option.get_some]
  rw [hroot]
  exact ⟨hbal, hlist, rfl⟩

/-- `UnLink` of an element that may be in the tree. -/
def unLink (t : TRbTree cmp) (z : T) : TRbTree cmp :=
  if h : z ∈ t.toList then
    { root := ((t.eraseImpl z).get (t.eraseImpl_isSome h)).1
      leftMost := ((t.eraseImpl z).get (t.eraseImpl_isSome h)).2
      balanced := (t.eraseImpl_get h rfl).1
      nodup := (t.eraseImpl_get h rfl).2.1 ▸ t.nodup.erase z
      leftMost_eq := (t.eraseImpl_get h rfl).2.2
      sorted := (t.eraseImpl_get h rfl).2.1 ▸ t.sorted.sublist List.erase_sublist }
  else t

theorem toList_unLink (t : TRbTree cmp) (z : T) : (t.unLink z).toList = t.toList.erase z := by
  unfold unLink
  split
  · next h => exact (t.eraseImpl_get h rfl).2.1
  · next h => exact (List.erase_of_not_mem h).symm

end UnLink

/-- Where `Insert` comes to, nothing in front compares greater and nothing behind compares less. -/
theorem between_insertPath (val : T) (path : TRbTreePath T) (t : TRbTreeNode T)
    (hsorted : (path.plug t).toList.Pairwise cmp.NotAfter)
    (hbefore : ∀ b ∈ path.before, cmp.NotAfter b val)
    (hafter : ∀ a ∈ path.after, cmp.NotAfter val a) :
    (∀ b ∈ (insertPath cmp.compare val path t).before, cmp.NotAfter b val) ∧
      ∀ a ∈ (insertPath cmp.compare val path t).after, cmp.NotAfter val a := by
  induction t generalizing path with
  | nil => exact ⟨hbefore, hafter⟩
  | node c l v r ihl ihr =>
    have hnode : (l.toList ++ v :: r.toList).Pairwise cmp.NotAfter := by
      rw [toList_plug] at hsorted
      exact (List.pairwise_append.1 (List.pairwise_append.1 hsorted).1).2.1
    obtain ⟨-, hvr, hlv⟩ := List.pairwise_append.1 hnode
    rw [insertPath]
    split
    · next hlt =>
      refine ihl _ hsorted hbefore ?_
      have hv : cmp.NotAfter val v := cmp.asymm _ _ hlt
      intro a ha
      simp only [Path.after, List.cons_append, List.mem_cons, List.mem_append] at ha
      rcases ha with rfl | ha | ha
      · exact hv
      · exact cmp.trans _ _ _ hv ((List.pairwise_cons.1 hvr).1 a ha)
      · exact hafter a ha
    · next hge =>
      refine ihr _ hsorted ?_ hafter
      intro b hb
      simp only [Path.before, List.mem_append, List.mem_singleton] at hb
      rcases hb with (hb | hb) | rfl
      · exact hbefore b hb
      · exact cmp.trans _ _ _ (hlv b hb v List.mem_cons_self) hge
      · exact hge

section Insert

variable [DecidableEq T]

/-- What `Insert` does to the root and to `LeftMost()` when it has taken the element out. -/
def insertImpl (t : TRbTree cmp) (val : T) : Option (TRbTreeNode T × Option T) :=
  let path := insertPath cmp.compare val [] t.root
  (insertAt path val).map fun root => (root, leftMostForInsert t.leftMost val path)

theorem insertImpl_spec (t : TRbTree cmp) (val : T) :
    ∃ root pre post, t.insertImpl val = some (root, root.toList.head?) ∧
      (∃ n, Balanced root black n) ∧
      t.toList = pre ++ post ∧ root.toList = pre ++ val :: post ∧
      (∀ b ∈ pre, cmp.NotAfter b val) ∧ ∀ a ∈ post, cmp.NotAfter val a := by
  obtain ⟨n, hn⟩ := t.balanced
  have hplug := plug_insertPath cmp.compare val [] t.root
  obtain ⟨root, m, hinsert, hm⟩ :=
    balanced_insertAt val (around_insertPath cmp.compare val .root hn)
  obtain ⟨hbefore, hafter⟩ := between_insertPath val [] t.root t.sorted (by simp [Path.before])
    (by simp [Path.after])
  have hlist : t.root.toList =
      (insertPath cmp.compare val [] t.root).before ++
        (insertPath cmp.compare val [] t.root).after := by
    have h := congrArg Tree.toList hplug
    rw [toList_plug, Tree.toList, List.append_nil] at h
    exact h.symm
  refine ⟨root, _, _, ?_, ⟨m, hm⟩, hlist, toList_insertAt hinsert, hbefore, hafter⟩
  have hnodup := t.nodup
  rw [hlist] at hnodup
  simp only [insertImpl]
  rw [hinsert, Option.map_some, t.leftMost_eq, hlist, leftMostForInsert_eq hnodup,
    toList_insertAt hinsert]

/-- The result of `InsertImpl` for an element that is not in the tree. -/
theorem insertImpl_some (t : TRbTree cmp) {val : T} (h : val ∉ t.toList) :
    ∃ p, t.insertImpl val = some p ∧ (∃ n, Balanced p.1 black n) ∧ p.1.toList.Nodup ∧
      p.2 = p.1.toList.head? ∧ p.1.toList.Pairwise cmp.NotAfter ∧
      p.1.toList.Perm (val :: t.toList) := by
  obtain ⟨root, pre, post, hinsert, hbal, hlist, hroot, hpre, hpost⟩ := t.insertImpl_spec val
  have hperm : root.toList.Perm (val :: t.toList) := by
    rw [hroot, hlist]
    exact List.perm_middle
  refine ⟨_, hinsert, hbal, hperm.nodup_iff.2 (List.nodup_cons.2 ⟨h, t.nodup⟩), rfl, ?_, hperm⟩
  have hsorted : (pre ++ post).Pairwise cmp.NotAfter := hlist ▸ t.sorted
  obtain ⟨h₁, h₂, h₁₂⟩ := List.pairwise_append.1 hsorted
  show root.toList.Pairwise _
  rw [hroot, List.pairwise_append]
  exact ⟨h₁, List.pairwise_cons.2 ⟨hpost, h₂⟩, fun b hb =>
    List.forall_mem_cons.2 ⟨hpre b hb, h₁₂ b hb⟩⟩

theorem notMem_unLink (t : TRbTree cmp) (val : T) : val ∉ (t.unLink val).toList := by
  rw [toList_unLink]
  exact List.Nodup.not_mem_erase t.nodup

theorem insertImpl_isSome (t : TRbTree cmp) (val : T) : ((t.unLink val).insertImpl val).isSome := by
  obtain ⟨p, hp, -⟩ := insertImpl_some _ (t.notMem_unLink val)
  rw [hp]
  rfl

theorem insertImpl_get (t : TRbTree cmp) (val : T) {p : TRbTreeNode T × Option T}
    (hp : ((t.unLink val).insertImpl val).get (t.insertImpl_isSome val) = p) :
    (∃ n, Balanced p.1 black n) ∧ p.1.toList.Nodup ∧ p.2 = p.1.toList.head? ∧
      p.1.toList.Pairwise cmp.NotAfter ∧ p.1.toList.Perm (val :: (t.unLink val).toList) := by
  obtain ⟨q, hq, hspec⟩ := insertImpl_some _ (t.notMem_unLink val)
  have : p = q := by
    rw [← hp]
    simp only [hq, Option.get_some]
  rw [this]
  exact hspec

/-- `Insert` -/
def insert (t : TRbTree cmp) (val : T) : TRbTree cmp where
  root := (((t.unLink val).insertImpl val).get (t.insertImpl_isSome val)).1
  leftMost := (((t.unLink val).insertImpl val).get (t.insertImpl_isSome val)).2
  balanced := (t.insertImpl_get val rfl).1
  nodup := (t.insertImpl_get val rfl).2.1
  leftMost_eq := (t.insertImpl_get val rfl).2.2.1
  sorted := (t.insertImpl_get val rfl).2.2.2.1

theorem toList_insert_perm (t : TRbTree cmp) (val : T) :
    (t.insert val).toList.Perm (val :: t.toList.erase val) := by
  rw [← toList_unLink]
  exact (t.insertImpl_get val rfl).2.2.2.2

end Insert

end TRbTree

end Balancer
