import Balancer.Theory.LinkedTree
import Balancer.Theory.Runs
import Balancer.Util.RbTree

/-!
# Red-black trees in memory

`util/generic/rbtree.h` on the nodes themselves: `Parent_`, `Left_`, `Right_`, `Color_` and
`Children_` of every node and of the header `Data_`, and `Tree_` of the elements. An operation has
no result where it follows a null pointer; a loop has none if it does not end within `fuel` turns.
`root` is `Data_.Parent_`, which the code passes by reference.

Code that is written twice, for left and for right, is written once for the side `d`, as in
`Balancer.Util.RbTree`.
-/

namespace Balancer

open LinkedTree Cell

/-- What a node holds besides its links. -/
structure TRbNodeInfo where
  color : TRbTreeColor
  children : Nat
  deriving DecidableEq, Repr

abbrev TRbMemory (T : Type) := Memory T TRbNodeInfo

variable {T : Type} [DecidableEq T]

namespace TRbTreeNodeBase

def setColor (c : TRbTreeColor) (cell : Cell T TRbNodeInfo) : Cell T TRbNodeInfo :=
  cell.setInfo { cell.info with color := c }

def setChildren (n : Nat) (cell : Cell T TRbNodeInfo) : Cell T TRbNodeInfo :=
  cell.setInfo { cell.info with children := n }

section

omit [DecidableEq T]

variable (c : TRbTreeColor) (n : Nat) (d : Side) (cell : Cell T TRbNodeInfo)

@[simp] theorem info_setColor : (setColor c cell).info = { cell.info with color := c } := rfl

@[simp] theorem parent_setColor : (setColor c cell).parent = cell.parent := rfl

@[simp] theorem child_setColor : (setColor c cell).child d = cell.child d := child_setInfo ..

@[simp] theorem info_setChildren : (setChildren n cell).info = { cell.info with children := n } :=
  rfl

@[simp] theorem parent_setChildren : (setChildren n cell).parent = cell.parent := rfl

@[simp] theorem child_setChildren : (setChildren n cell).child d = cell.child d := child_setInfo ..

end

/-- `ReInitNode()` -/
def reInitNode : Cell T TRbNodeInfo := ⟨⟨.black, 1⟩, none, none, none⟩

/-- `x && x->Color_ == RBTreeRed` -/
def isRed (m : TRbMemory T) : Option T → Bool
  | none => false
  | some x => (m x).info.color = .red

/-- `x ? x->Children_ : 0` -/
def childrenOf (m : TRbMemory T) : Option T → Nat
  | none => 0
  | some x => (m x).info.children

/-- `MinimumNode(x)` for the left side, `MaximumNode(x)` for the right one. -/
def extremeNode (d : Side) (m : TRbMemory T) : (fuel : Nat) → T → Option T
  | 0, _ => none
  | fuel + 1, x =>
    match (m x).child d with
    | none => some x
    | some y => extremeNode d m fuel y

inductive TRbIndexException where
  /-- "index not found" -/
  | indexNotFound
  deriving DecidableEq, Repr

/-- `ByIndex(x, index)` -/
def byIndex (m : TRbMemory T) :
    (fuel : Nat) → T → (index : Nat) → Option (Except TRbIndexException T)
  | 0, _, _ => none
  | fuel + 1, x, index =>
    -- what follows the test of the left side
    let right (index : Nat) :=
      if 0 = index then some (.ok x)
      else
        match (m x).right with
        | none => some (.error .indexNotFound)
        | some r => byIndex m fuel r (index - 1)
    match (m x).left with
    | none => right index
    | some l =>
      if index < (m l).info.children then byIndex m fuel l index
      else right (index - (m l).info.children)

/-- What `ByIndex` does behind the left side of `x`. -/
def byIndexRight (m : TRbMemory T) (fuel : Nat) (x : T) (index : Nat) :
    Option (Except TRbIndexException T) :=
  if 0 = index then some (.ok x)
  else (m x).right.elim (some (.error .indexNotFound)) fun r => byIndex m fuel r (index - 1)

omit [DecidableEq T] in
theorem byIndex_succ (m : TRbMemory T) (fuel : Nat) (x : T) (index : Nat) :
    byIndex m (fuel + 1) x index = (m x).left.elim (byIndexRight m fuel x index) fun l =>
      if index < (m l).info.children then byIndex m fuel l index
      else byIndexRight m fuel x (index - (m l).info.children) := by
  cases hl : (m x).left <;> cases hr : (m x).right <;>
    simp only [byIndex, byIndexRight, hl, hr, Option.elim]

end TRbTreeNodeBase

open TRbTreeNodeBase

namespace TRbGlobal

variable (data : T)

/-- The pointer of the parent of `x`, or `root`, goes to `y` instead; the code looks at the side `d`
first. -/
def relinkParent (d : Side) (m : TRbMemory T) (x : T) (y : Option T) : Option (TRbMemory T) :=
  if (m data).parent = some x then some (m.modify data (setParent y))
  else do
    let parent ← (m x).parent
    if (m parent).child d = some x then some (m.modify parent (setChild d y))
    else some (m.modify parent (setChild d.other y))

/-- `RotateLeft(x, root)` and `RotateRight(x, root)` -/
def rotate (d : Side) (m : TRbMemory T) (x : T) : Option (TRbMemory T) := do
  let y ← (m x).child d.other
  let m := m.modify x (setChild d.other ((m y).child d))
  let m := m.modify? ((m y).child d) (setParent (some x))
  let m := m.modify y (setParent (m x).parent)
  let m ← relinkParent data d m x (some y)
  let m := m.modify y (setChild d (some x))
  let m := m.modify x (setParent (some y))
  let m := m.modify y (setChildren (m x).info.children)
  some (m.modify x (setChildren (childrenOf m (m x).left + childrenOf m (m x).right + 1)))

/-- The end of a turn of the loop of `Rebalance`, where the grandparent of `x` goes down to the
other side. -/
def rebalanceOuter (d : Side) (m : TRbMemory T) (x : T) : Option (TRbMemory T) := do
  let parent ← (m x).parent
  let m := m.modify parent (setColor .black)
  let grand ← (m parent).parent
  let m := m.modify grand (setColor .red)
  rotate data d.other m grand

/-- The loop of `Rebalance(x, root)` -/
def rebalanceLoop : (fuel : Nat) → TRbMemory T → T → Option (TRbMemory T)
  | 0, _, _ => none
  | fuel + 1, m, x =>
    if (m data).parent = some x then some m
    else do
      let parent ← (m x).parent
      if (m parent).info.color ≠ .red then some m
      else
        let grand ← (m parent).parent
        let d := if (m grand).left = some parent then Side.left else Side.right
        let y := (m grand).child d.other
        if isRed m y then
          let m := m.modify parent (setColor .black)
          let m := m.modify? y (setColor .black)
          let m := m.modify grand (setColor .red)
          rebalanceLoop fuel m grand
        else
          let turned := (m parent).child d.other = some x
          let x := if turned then parent else x
          let m ← if turned then rotate data d m parent else some m
          let m ← rebalanceOuter data d m x
          rebalanceLoop fuel m x

/-- `Rebalance(x, root)` -/
def rebalance (fuel : Nat) (m : TRbMemory T) (x : T) : Option (TRbMemory T) := do
  let m := m.modify x (setColor .red)
  let m ← rebalanceLoop data fuel m x
  let root ← (m data).parent
  some (m.modify root (setColor .black))

/-- The end of the loop of `RebalanceForErase`, where the far child of `w` is red. -/
def borrowFar (d : Side) (m : TRbMemory T) (xParent : T) : Option (TRbMemory T) := do
  let w ← (m xParent).child d.other
  let m := m.modify w (setColor (m xParent).info.color)
  let m := m.modify xParent (setColor .black)
  let m := m.modify? ((m w).child d.other) (setColor .black)
  rotate data d m xParent

/-- The part of the loop of `RebalanceForErase` where `w` is black: `true` if the loop goes on
above. -/
def borrow (d : Side) (m : TRbMemory T) (xParent : T) : Option (Bool × TRbMemory T) := do
  let w ← (m xParent).child d.other
  if ¬isRed m ((m w).child d) ∧ ¬isRed m ((m w).child d.other) then
    some (true, m.modify w (setColor .red))
  else
    let m ← if ¬isRed m ((m w).child d.other) then
        let m := m.modify? ((m w).child d) (setColor .black)
        let m := m.modify w (setColor .red)
        rotate data d.other m w
      else some m
    let m ← borrowFar data d m xParent
    some (false, m)

/-- The loop of `RebalanceForErase`, with `x` at its end. -/
def eraseLoop : (fuel : Nat) → TRbMemory T → (x xParent : Option T) →
    Option (TRbMemory T × Option T)
  | 0, _, _, _ => none
  | fuel + 1, m, x, xParent =>
    if x = (m data).parent ∨ isRed m x then some (m, x)
    else do
      let xParent ← xParent
      let d := if x = (m xParent).left then Side.left else Side.right
      let w ← (m xParent).child d.other
      let m ← if isRed m (some w) then
          let m := m.modify w (setColor .black)
          let m := m.modify xParent (setColor .red)
          rotate data d m xParent
        else some m
      let (more, m) ← borrow data d m xParent
      if more then eraseLoop fuel m (some xParent) (m xParent).parent
      else some (m, x)

/-- The node that `z` is unlinked with, what takes its place and the parent of that, and the color
that is gone. -/
structure TUnlinked (T : Type) where
  m : TRbMemory T
  x : Option T
  xParent : Option T
  color : TRbTreeColor

/-- `leftmost` or `rightmost`, where `z` has at most one child: `d` is the side of the pointer, `x`
the child. -/
def relinkExtreme (d : Side) (fuel : Nat) (m : TRbMemory T) (z : T) (x : Option T) :
    Option (TRbMemory T) :=
  if (m data).child d = some z then
    match (m z).child d.other with
    | none => some (m.modify data (setChild d (m z).parent))
    | some _ => do
      let x ← x
      let y ← extremeNode d m fuel x
      some (m.modify data (setChild d (some y)))
  else some m

/-- The children of `z` go to `y`, the first node on the right of `z`: `y` has been cut out of its
place, which has the parent that is given back. -/
def joinChildren (m : TRbMemory T) (z left right y : T) : Option (TRbMemory T × T) := do
  let x := (m y).right
  let m := m.modify left (setParent (some y))
  let m := m.modify y (setChild .left (m z).left)
  if y ≠ right then
    let yParent ← (m y).parent
    let m := m.modify? x (setParent (some yParent))
    let m := m.modify yParent (setChild .left x)
    let m := m.modify y (setChild .right (m z).right)
    let m := m.modify right (setParent (some y))
    some (m, yParent)
  else some (m, y)

/-- `RebalanceForErase` up to the loop, for a node with two children: the next node is linked in its
place. -/
def unlinkTwo (fuel : Nat) (m : TRbMemory T) (z left right : T) : Option (TUnlinked T) := do
  let y ← extremeNode .left m fuel right
  let x := (m y).right
  let (m, xParent) ← joinChildren m z left right y
  let m ← relinkParent data .left m z (some y)
  let m := m.modify y (setParent (m z).parent)
  let color := (m y).info.color
  let m := m.modify y (setColor (m z).info.color)
  let m := m.modify z (setColor color)
  some ⟨m, x, some xParent, color⟩

/-- `RebalanceForErase` up to the loop, for a node that has at most the child `x`. -/
def unlinkOne (fuel : Nat) (m : TRbMemory T) (z : T) (x : Option T) : Option (TUnlinked T) := do
  let xParent := (m z).parent
  let m := m.modify? x (setParent xParent)
  let m ← relinkParent data .left m z x
  let m ← relinkExtreme data .left fuel m z x
  let m ← relinkExtreme data .right fuel m z x
  some ⟨m, x, xParent, (m z).info.color⟩

/-- `RebalanceForErase` up to the loop. -/
def unlink (fuel : Nat) (m : TRbMemory T) (z : T) : Option (TUnlinked T) :=
  match (m z).left, (m z).right with
  | some left, some right => unlinkTwo data fuel m z left right
  | left, right => unlinkOne data fuel m z (left.or right)

/-- `RebalanceForErase(z, root, leftmost, rightmost)` -/
def rebalanceForErase (fuel : Nat) (m : TRbMemory T) (z : T) : Option (TRbMemory T) := do
  let u ← unlink data fuel m z
  if u.color ≠ .red then
    let (m, x) ← eraseLoop data fuel u.m u.x u.xParent
    some (m.modify? x (setColor .black))
  else some u.m

/-- The loop of `IncrementNode`. -/
def climb (m : TRbMemory T) : (fuel : Nat) → (node y : T) → Option (T × T)
  | 0, _, _ => none
  | fuel + 1, node, y =>
    if (m y).right = some node then do
      let parent ← (m y).parent
      climb m fuel y parent
    else some (node, y)

/-- `IncrementNode(node)` -/
def incrementNode (fuel : Nat) (m : TRbMemory T) (node : T) : Option T :=
  match (m node).right with
  | some right => extremeNode .left m fuel right
  | none => do
    let y ← (m node).parent
    let (node, y) ← climb m fuel node y
    if (m node).right ≠ some y then some y else some node

end TRbGlobal

open TRbGlobal

/-- The nodes, and which elements have a `Tree_`. -/
structure TRbTreeState (T : Type) where
  nodes : TRbMemory T
  tree : T → Bool

namespace TRbTreeState

variable (data : T)

/-- `Init()`, and elements that have just been constructed. -/
def init : TRbTreeState T where
  nodes := fun a => if a = data then ⟨⟨.red, 0⟩, none, some data, some data⟩ else reInitNode
  tree := fun _ => false

/-- `UnLink()` of an element. -/
def unLink (fuel : Nat) (s : TRbTreeState T) (val : T) : Option (TRbTreeState T) :=
  if s.tree val then do
    let nodes ← rebalanceForErase data fuel s.nodes val
    some ⟨nodes.modify val fun _ => reInitNode, Function.update s.tree val false⟩
  else some s

variable (compare : T → T → Bool)

/-- The loop of `Insert(val)`: the last node of the way down. -/
def insertLoop (val : T) : (fuel : Nat) → TRbMemory T → (y : T) → (x : Option T) →
    Option (TRbMemory T × T)
  | 0, _, _, _ => none
  | fuel + 1, m, y, x =>
    match x with
    | none => some (m, y)
    | some x =>
      let m := m.modify x fun cell => setChildren (cell.info.children + 1) cell
      insertLoop val fuel m x (if compare val x then (m x).left else (m x).right)

/-- The links that `InsertImpl(parent, val)` makes. -/
def linkNode (m : TRbMemory T) (parent val : T) : TRbMemory T :=
  let m :=
    if parent = data then
      let m := m.modify parent (setChild .left (some val))
      let m := m.modify data (setParent (some val))
      m.modify data (setChild .right (some val))
    else
      let d := if compare val parent then Side.left else Side.right
      let m := m.modify parent (setChild d (some val))
      if (m data).child d = some parent then m.modify data (setChild d (some val)) else m
  m.modify val (setParent (some parent))

/-- `InsertImpl(parent, val)`, which `Insert` calls with null pointers for `on_left` and
`on_right`. -/
def insertImpl (fuel : Nat) (m : TRbMemory T) (parent val : T) : Option (TRbMemory T) :=
  rebalance data fuel (linkNode data compare m parent val) val

/-- `Insert(val)` -/
def insert (fuel : Nat) (s : TRbTreeState T) (val : T) : Option (TRbTreeState T) := do
  let s ← s.unLink data fuel val
  let (m, parent) ← insertLoop compare val fuel s.nodes data (s.nodes data).parent
  let m ← insertImpl data compare fuel m parent val
  some ⟨m, Function.update s.tree val true⟩

/-- The elements that `ForEach` comes to, from `it` on. -/
def forEach (m : TRbMemory T) : (fuel : Nat) → (it : T) → Option (List T)
  | 0, _ => none
  | fuel + 1, it =>
    if it = data then some []
    else do
      let next ← incrementNode fuel m it
      let rest ← forEach m fuel next
      some (it :: rest)

/-- `ByIndex(index)` of the tree. -/
def byIndex (fuel : Nat) (s : TRbTreeState T) (index : Nat) :
    Option (Except TRbIndexException T) := do
  let root ← (s.nodes data).parent
  TRbTreeNodeBase.byIndex s.nodes fuel root index

end TRbTreeState

/-- A call on the tree or on one of the elements, which are the nodes besides the header. -/
inductive TRbTreeOp (data : T) where
  | insert (val : { v : T // v ≠ data })
  /-- `Erase(val)` is `val.UnLink()` -/
  | erase (val : { v : T // v ≠ data })

namespace TRbTreeOp

variable {data : T}

/-- The element that is moved. -/
def val : TRbTreeOp data → T
  | insert v => v
  | erase v => v

def exec (compare : T → T → Bool) (fuel : Nat) (s : TRbTreeState T) :
    TRbTreeOp data → Option (TRbTreeState T)
  | insert v => s.insert data compare fuel v
  | erase v => s.unLink data fuel v

variable (data) in
/-- Calls one after the other. -/
def system (compare : T → T → Bool) (fuel : Nat) : Runs.System (TRbTreeState T) (TRbTreeOp data) :=
  ⟨exec compare fuel⟩

/-- The elements that are in the tree after a call, in any order. -/
def present : TRbTreeOp data → List T → List T
  | insert v, l => v :: l.erase v
  | erase v, l => l.erase v

end TRbTreeOp

end Balancer
