import Balancer.Theory.LinkedTree
import Balancer.Theory.Runs
import Balancer.Util.AvlTree

/-!
# AVL trees in memory

`util/generic/avltree.h` on the nodes themselves: `Left_`, `Right_`, `Parent_`, `Height_` and
`Tree_` of every element, and `Root_`, `Head_` and `Tail_` of one tree. An operation has no result
where it follows a null pointer; a loop has none if it does not end within `fuel` turns.

An element that is not in the tree keeps the links that it had when it was taken out; `Tree_` alone
tells if it is in one. Code that is written twice, for left and for right, is written once for the
side `d`.
-/

namespace Balancer

open LinkedTree Cell

/-- The data of a cell is `Height_`. -/
abbrev TAvlMemory (T : Type) := Memory T Nat

/-- `tree` tells if `Tree_` of an element is the tree, and not null. -/
structure TAvlState (T : Type) where
  nodes : TAvlMemory T
  tree : T → Bool
  root : Option T
  head : Option T
  tail : Option T

variable {T : Type} [DecidableEq T]

namespace TAvlMemory

/-- `p ? p->Height_ : 0` -/
def heightOf (m : TAvlMemory T) : Option T → Nat
  | none => 0
  | some v => (m v).info

/-- The height of a node by its children. -/
def newHeight (m : TAvlMemory T) (el : T) : Nat :=
  max (heightOf m (m el).left) (heightOf m (m el).right) + 1

def recalcHeights : (fuel : Nat) → TAvlMemory T → (el : Option T) → Option (TAvlMemory T)
  | 0, _, _ => none
  | _ + 1, m, none => some m
  | fuel + 1, m, some el =>
    if newHeight m el = (m el).info then some m
    else recalcHeights fuel (m.modify el (setInfo (newHeight m el))) (m el).parent

/-- `balanceProp < -1 || balanceProp > 1` -/
def isUnbal (m : TAvlMemory T) (el : T) : Bool :=
  let balanceProp : ℤ := heightOf m (m el).left - heightOf m (m el).right
  balanceProp < -1 || 1 < balanceProp

/-- The loop of `FindFirstUnbalGP`; the result is a pointer. -/
def findFirstUnbalGPLoop (m : TAvlMemory T) : (fuel : Nat) → (el gp : Option T) → Option (Option T)
  | 0, _, _ => none
  | _ + 1, _, none => some none
  | fuel + 1, el, some gp =>
    if isUnbal m gp then some el
    else
      match el with
      | none => none
      | some el => findFirstUnbalGPLoop m fuel (m el).parent (m gp).parent

def findFirstUnbalGP (m : TAvlMemory T) (fuel : Nat) (el : T) : Option (Option T) :=
  match (m el).parent with
  | none => some none
  | some p =>
    match (m p).parent with
    | none => some none
    | some gp => findFirstUnbalGPLoop m fuel (some el) (some gp)

def findFirstUnbalEl (m : TAvlMemory T) : (fuel : Nat) → (el : Option T) → Option (Option T)
  | 0, _ => none
  | _ + 1, none => some none
  | fuel + 1, some el =>
    if isUnbal m el then some (some el) else findFirstUnbalEl m fuel (m el).parent

/-- The pointer to `el`, which `parent` has or the tree, goes to `new` instead: the new nodes and
`Root_`. -/
def setInParent (m : TAvlMemory T) (root parent : Option T) (el : T) (new : Option T) :
    TAvlMemory T × Option T :=
  match parent with
  | none => (m, new)
  | some p =>
    if (m p).left = some el then (m.modify p (setChild .left new), root)
    else (m.modify p (setChild .right new), root)

/-- The nodes that `Rebalance` arranges, in their order, and the trees between them. -/
structure TTriple (T : Type) where
  a : T
  b : T
  c : T
  t1 : Option T
  t2 : Option T
  t3 : Option T
  t4 : Option T

def triple (m : TAvlMemory T) (n p gp : T) : TTriple T :=
  if (m gp).right = some p then
    if (m p).right = some n then ⟨gp, p, n, (m gp).left, (m p).left, (m n).left, (m n).right⟩
    else ⟨gp, n, p, (m gp).left, (m n).left, (m n).right, (m p).right⟩
  else if (m p).right = some n then ⟨p, n, gp, (m p).left, (m n).left, (m n).right, (m gp).right⟩
  else ⟨n, p, gp, (m n).left, (m n).right, (m p).right, (m gp).right⟩

/-- The links of `Rebalance`. -/
def link (m : TAvlMemory T) (ggp : Option T) (x : TTriple T) : TAvlMemory T :=
  let m := m.modify x.b (setParent ggp)
  let m := m.modify x.b (setChild .left (some x.a))
  let m := m.modify x.a (setParent (some x.b))
  let m := m.modify x.b (setChild .right (some x.c))
  let m := m.modify x.c (setParent (some x.b))
  let m := m.modify x.a (setChild .left x.t1)
  let m := m.modify? x.t1 (setParent (some x.a))
  let m := m.modify x.a (setChild .right x.t2)
  let m := m.modify? x.t2 (setParent (some x.a))
  let m := m.modify x.c (setChild .left x.t3)
  let m := m.modify? x.t3 (setParent (some x.c))
  let m := m.modify x.c (setChild .right x.t4)
  m.modify? x.t4 (setParent (some x.c))

/-- The heights of `Rebalance`. -/
def linkHeights (m : TAvlMemory T) (x : TTriple T) : TAvlMemory T :=
  let m := m.modify x.a (setInfo (newHeight m x.a))
  let m := m.modify x.c (setInfo (newHeight m x.c))
  m.modify x.b (setInfo (max (m x.a).info (m x.c).info + 1))

/-- The node that `EraseImpl` calls `Rebalance` for, with `ub` out of balance. -/
def unbalGrandchild (m : TAvlMemory T) (ub : T) : Option T :=
  if heightOf m (m ub).right > heightOf m (m ub).left then do
    let ub ← (m ub).right
    if heightOf m (m ub).right > heightOf m (m ub).left then (m ub).right
    else if heightOf m (m ub).right < heightOf m (m ub).left then (m ub).left
    else (m ub).right
  else do
    let ub ← (m ub).left
    if heightOf m (m ub).right > heightOf m (m ub).left then (m ub).right
    else if heightOf m (m ub).right < heightOf m (m ub).left then (m ub).left
    else (m ub).left

/-- `FindNext(el)` for an element without a right child. -/
def climb (m : TAvlMemory T) : (fuel : Nat) → (el : T) → Option (Option T)
  | 0, _ => none
  | fuel + 1, last =>
    match (m last).parent with
    | none => some none
    | some el => if (m el).left = some last then some (some el) else climb m fuel el

/-- `FindNext(el)`; the result is a pointer. -/
def findNext (m : TAvlMemory T) (fuel : Nat) (el : T) : Option (Option T) :=
  match (m el).right with
  | some r => (descend .left m fuel r).map some
  | none => climb m fuel el

/-- The elements from the iterator `it` to `End()`. -/
def forEach (m : TAvlMemory T) : (fuel : Nat) → (it : Option T) → Option (List T)
  | 0, _ => none
  | _ + 1, none => some []
  | fuel + 1, some it => do
    let next ← findNext m fuel it
    let rest ← forEach m fuel next
    some (it :: rest)

variable (compare : T → T → Bool)

/-- The loop of `LowerBound(el)`; the result is a pointer. -/
def lowerBoundLoop (m : TAvlMemory T) (el : T) : (fuel : Nat) → (curEl lowerBound : Option T) →
    Option (Option T)
  | 0, _, _ => none
  | _ + 1, none, lowerBound => some lowerBound
  | fuel + 1, some curEl, lowerBound =>
    if compare el curEl then lowerBoundLoop m el fuel (m curEl).left (some curEl)
    else if compare curEl el then lowerBoundLoop m el fuel (m curEl).right lowerBound
    else some (some curEl)

/-- Where the search of `Insert` ends. -/
inductive TPlace (T : Type) where
  | found (curEl : T)
  | free (parentEl lastLess : Option T)

/-- The loop of `Insert(el)`. -/
def insertLoop (m : TAvlMemory T) (el : T) :
    (fuel : Nat) → (curEl parentEl lastLess : Option T) → Option (TPlace T)
  | 0, _, _, _ => none
  | _ + 1, none, parentEl, lastLess => some (.free parentEl lastLess)
  | fuel + 1, some curEl, _, lastLess =>
    if compare el curEl then insertLoop m el fuel (m curEl).left (some curEl) (some curEl)
    else if compare curEl el then insertLoop m el fuel (m curEl).right (some curEl) lastLess
    else some (.found curEl)

end TAvlMemory

namespace TAvlState

open TAvlMemory

/-- A tree without elements, and elements that are in no tree. -/
def init : TAvlState T where
  nodes _ := ⟨0, none, none, none⟩
  tree _ := false
  root := none
  head := none
  tail := none

/-- `Rebalance(n)`, and the node that is returned. -/
def rebalance (fuel : Nat) (s : TAvlState T) (n : T) : Option (TAvlState T × Option T) := do
  let p ← (s.nodes n).parent
  let gp ← (s.nodes p).parent
  let ggp := (s.nodes gp).parent
  let x := triple s.nodes n p gp
  let (m, root) := setInParent s.nodes s.root ggp gp (some x.b)
  let m ← recalcHeights fuel (linkHeights (link m ggp x) x) ggp
  some ({ s with nodes := m, root }, ggp)

def removeEl (s : TAvlState T) (el : T) (filler : Option T) : TAvlState T :=
  let parent := (s.nodes el).parent
  let (m, root) := setInParent s.nodes s.root parent el filler
  { s with nodes := m.modify? filler (setParent parent), root }

def replaceEl (s : TAvlState T) (el replacement : T) : TAvlState T :=
  let parent := (s.nodes el).parent
  let left := (s.nodes el).left
  let right := (s.nodes el).right
  let m := s.nodes.modify replacement (setChild .left left)
  let m := m.modify? left (setParent (some replacement))
  let m := m.modify replacement (setChild .right right)
  let m := m.modify? right (setParent (some replacement))
  let m := m.modify replacement (setParent parent)
  let (m, root) := setInParent m s.root parent el (some replacement)
  { s with nodes := m.modify replacement (setInfo (m el).info), root }

/-- `Head_` for the right side and `Tail_` for the left one, if it is `el`. -/
def replaceEnd (d : Side) (s : TAvlState T) (el : T) (new : Option T) : TAvlState T :=
  match d with
  | .right => if s.head = some el then { s with head := new } else s
  | .left => if s.tail = some el then { s with tail := new } else s

/-- `EraseImpl(el)` up to `fixfrom`, for an element with the child `child` on the side `d`. -/
def replace (d : Side) (fuel : Nat) (s : TAvlState T) (el child : T) :
    Option (TAvlState T × Option T) := do
  let replacement ← descend d.other s.nodes fuel child
  let fixfrom :=
    if (s.nodes replacement).parent = some el then some replacement
    else (s.nodes replacement).parent
  let s := s.replaceEnd d el (some replacement)
  let s := s.removeEl replacement ((s.nodes replacement).child d)
  some (s.replaceEl el replacement, fixfrom)

/-- `EraseImpl(el)` up to `fixfrom`. -/
def takeOut (fuel : Nat) (s : TAvlState T) (el : T) : Option (TAvlState T × Option T) :=
  match (s.nodes el).right with
  | some right => replace .right fuel s el right
  | none =>
    match (s.nodes el).left with
    | some left => replace .left fuel s el left
    | none =>
      let fixfrom := (s.nodes el).parent
      let s := s.replaceEnd .right el fixfrom
      let s := s.replaceEnd .left el fixfrom
      some (s.removeEl el none, fixfrom)

/-- The loop of `EraseImpl`, in `turns` turns at most. -/
def fixLoop (fuel : Nat) : (turns : Nat) → TAvlState T → (fixfrom : Option T) → Option (TAvlState T)
  | 0, _, _ => none
  | turns + 1, s, fixfrom =>
    match findFirstUnbalEl s.nodes fuel fixfrom with
    | none => none
    | some none => some s
    | some (some ub) => do
      let n ← unbalGrandchild s.nodes ub
      let (s, fixfrom) ← s.rebalance fuel n
      fixLoop fuel turns s fixfrom

def eraseImpl (fuel : Nat) (s : TAvlState T) (el : T) : Option (TAvlState T) := do
  let s := { s with tree := Function.update s.tree el false }
  let (s, fixfrom) ← s.takeOut fuel el
  if fixfrom = none then some s
  else
    let m ← recalcHeights fuel s.nodes fixfrom
    fixLoop fuel fuel { s with nodes := m } fixfrom

/-- `Erase(el)`; `el->Unlink()` and the destructor of `el` do the same. -/
def erase (fuel : Nat) (s : TAvlState T) (el : T) : Option (TAvlState T) :=
  if s.tree el then s.eraseImpl fuel el else some s

/-- `AttachRebal(el, parentEl, lastLess)` before the heights are computed. -/
def attach (s : TAvlState T) (el : T) (parentEl lastLess : Option T) : Option (TAvlState T) :=
  let m := s.nodes.modify el fun _ => ⟨1, parentEl, none, none⟩
  match parentEl with
  | none => some { s with nodes := m, root := some el, head := some el, tail := some el }
  | some p => do
    let m := m.modify p (setChild (if lastLess = some p then .left else .right) (some el))
    let head ← s.head
    let tail ← s.tail
    some { s with nodes := m,
                  head := some (if (m head).left = some el then el else head),
                  tail := some (if (m tail).right = some el then el else tail) }

def attachRebal (fuel : Nat) (s : TAvlState T) (el : T) (parentEl lastLess : Option T) :
    Option (TAvlState T) := do
  let s ← s.attach el parentEl lastLess
  let m ← recalcHeights fuel s.nodes parentEl
  let s := { s with nodes := m }
  let ub ← findFirstUnbalGP m fuel el
  match ub with
  | none => some s
  | some ub => (s.rebalance fuel ub).map Prod.fst

variable (compare : T → T → Bool)

/-- `Insert(el)` after `el->Unlink()`. -/
def insertUnlinked (fuel : Nat) (s : TAvlState T) (el : T) : Option (TAvlState T × Bool) := do
  let s := { s with tree := Function.update s.tree el true }
  let place ← insertLoop compare s.nodes el fuel s.root none none
  match place with
  | .found _ => some (s, false)
  | .free parentEl lastLess => (s.attachRebal fuel el parentEl lastLess).map (·, true)

/-- `Insert(el)`, and if a pointer to `el` is returned. -/
def insert (fuel : Nat) (s : TAvlState T) (el : T) : Option (TAvlState T × Bool) := do
  let s ← s.erase fuel el
  s.insertUnlinked compare fuel el

def lowerBound (fuel : Nat) (s : TAvlState T) (el : T) : Option (Option T) :=
  lowerBoundLoop compare s.nodes el fuel s.root none

/-- The elements from `Begin()` to `End()`. -/
def elements (fuel : Nat) (s : TAvlState T) : Option (List T) := forEach s.nodes fuel s.head

end TAvlState

/-- A call on the tree or on one of the elements. -/
inductive TAvlOp (T : Type) where
  | insert (el : T)
  | erase (el : T)

namespace TAvlOp

/-- The element of the call. -/
def el : TAvlOp T → T
  | insert el => el
  | erase el => el

variable (compare : T → T → Bool)

def exec (fuel : Nat) (s : TAvlState T) : TAvlOp T → Option (TAvlState T)
  | insert el => (s.insert compare fuel el).map Prod.fst
  | erase el => s.erase fuel el

/-- Calls one after the other. -/
def system (fuel : Nat) : Runs.System (TAvlState T) (TAvlOp T) := ⟨exec compare fuel⟩

end TAvlOp

end Balancer
