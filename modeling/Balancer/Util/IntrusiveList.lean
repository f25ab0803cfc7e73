import Balancer.Theory.LinkedRing

/-!
# Intrusive lists

`TIntrusiveListItem` and `TIntrusiveList` of `util/generic/intrlist.h`. The memory holds `Next_` and
`Prev_` of every node; a list is given by the address of its `End_`.
-/

namespace Balancer

open LinkedRing

variable {ν : Type} [DecidableEq ν]

namespace TIntrusiveListItem

/-- `Empty()` -/
abbrev empty (h : Links ν) (this : ν) : Prop := h.prev this = this ∧ h.next this = this

/-- `SetEnd()` -/
def setEnd (h : Links ν) (this : ν) : Links ν := (h.setPrev this this).setNext this this

/-- `Unlink()` -/
def unlink (h : Links ν) (this : ν) : Links ν :=
  if empty h this then h
  else
    let h := h.setNext (h.prev this) (h.next this)
    let h := h.setPrev (h.next this) (h.prev this)
    setEnd h this

/-- `LinkBeforeNoUnlink(before)` -/
def linkBeforeNoUnlink (h : Links ν) (this before : ν) : Links ν :=
  let after := h.prev before
  let h := h.setNext after this
  let h := h.setPrev this after
  let h := h.setNext this before
  h.setPrev before this

/-- `LinkBefore(before)` -/
def linkBefore (h : Links ν) (this before : ν) : Links ν :=
  linkBeforeNoUnlink (unlink h this) this before

/-- `LinkAfter(after)` -/
def linkAfter (h : Links ν) (this after : ν) : Links ν :=
  let h := unlink h this
  linkBeforeNoUnlink h this (h.next after)

end TIntrusiveListItem

namespace TIntrusiveList

open TIntrusiveListItem

/-- `Begin()` -/
def begin (h : Links ν) (this : ν) : ν := h.next this

/-- `PushBack(item)` -/
def pushBack (h : Links ν) (this item : ν) : Links ν := linkBefore h item this

/-- `PushFront(item)` -/
def pushFront (h : Links ν) (this item : ν) : Links ν := linkAfter h item this

/-- `PopBack()` -/
def popBack (h : Links ν) (this : ν) : ν × Links ν :=
  let ret := h.prev this
  (ret, unlink h ret)

/-- `PopFront()` -/
def popFront (h : Links ν) (this : ν) : ν × Links ν :=
  let ret := h.next this
  (ret, unlink h ret)

/-- `Cut(begin, end, pasteBefore)` -/
def cut (h : Links ν) (first last pasteBefore : ν) : Links ν :=
  if first = last then h
  else
    let cutFront := first
    let gapBack := last
    let gapFront := h.prev cutFront
    let cutBack := h.prev gapBack
    let h := h.setNext gapFront gapBack
    let h := h.setPrev gapBack gapFront
    let pasteBack := pasteBefore
    let pasteFront := h.prev pasteBack
    let h := h.setNext pasteFront cutFront
    let h := h.setPrev cutFront pasteFront
    let h := h.setNext cutBack pasteBack
    h.setPrev pasteBack cutBack

/-- `Append(lst)` -/
def append (h : Links ν) (this lst : ν) : Links ν := cut h (begin h lst) lst this

/-- `Swap(lst)`, with the address of its list `tmp`, from the constructor of `tmp` to its
destructor. -/
def swap (h : Links ν) (tmp this lst : ν) : Links ν :=
  let h := setEnd h tmp
  let h := append h tmp lst
  let h := append h lst this
  let h := append h this tmp
  unlink h tmp

end TIntrusiveList

/-! ### Sequences of operations -/

/-- What an iterator points to: an item, or the `End_` of a list. -/
inductive TListPlace (ι κ : Type) where
  | item (i : ι)
  | endOf (l : κ)
  deriving DecidableEq

inductive TListOp (ι Λ : Type) where
  | linkBefore (i : ι) (before : TListPlace ι Λ)
  | linkAfter (i : ι) (after : TListPlace ι Λ)
  | unlink (i : ι)
  | pushBack (this : Λ) (i : ι)
  | pushFront (this : Λ) (i : ι)
  | popFront (this : Λ)
  | popBack (this : Λ)
  | append (this lst : Λ)
  | swap (this lst : Λ)
  | cut (first last pasteBefore : TListPlace ι Λ)

/-- The nodes of the memory: besides those of the caller there is the list that `Swap` makes. -/
abbrev TListNode (ι Λ : Type) := TListPlace ι (Option Λ)

def TListPlace.node {ι Λ : Type} : TListPlace ι Λ → TListNode ι Λ
  | .item i => .item i
  | .endOf l => .endOf (some l)

variable {ι Λ : Type} [DecidableEq ι] [DecidableEq Λ]

/-- The memory behind an operation, and the item that it gives back. -/
def TListOp.exec (h : Links (TListNode ι Λ)) :
    TListOp ι Λ → Links (TListNode ι Λ) × Option (TListNode ι Λ)
  | .linkBefore i before => (TIntrusiveListItem.linkBefore h (.item i) before.node, none)
  | .linkAfter i after => (TIntrusiveListItem.linkAfter h (.item i) after.node, none)
  | .unlink i => (TIntrusiveListItem.unlink h (.item i), none)
  | .pushBack this i => (TIntrusiveList.pushBack h (.endOf (some this)) (.item i), none)
  | .pushFront this i => (TIntrusiveList.pushFront h (.endOf (some this)) (.item i), none)
  | .popFront this =>
    let (ret, h) := TIntrusiveList.popFront h (.endOf (some this))
    (h, some ret)
  | .popBack this =>
    let (ret, h) := TIntrusiveList.popBack h (.endOf (some this))
    (h, some ret)
  | .append this lst => (TIntrusiveList.append h (.endOf (some this)) (.endOf (some lst)), none)
  | .swap this lst =>
    (TIntrusiveList.swap h (.endOf none) (.endOf (some this)) (.endOf (some lst)), none)
  | .cut first last pasteBefore =>
    (TIntrusiveList.cut h first.node last.node pasteBefore.node, none)

/-- The operations one after the other, with what they give back. -/
def TListOp.execAll (h : Links (TListNode ι Λ)) :
    List (TListOp ι Λ) → Links (TListNode ι Λ) × List (Option (TListNode ι Λ))
  | [] => (h, [])
  | op :: ops =>
    let (h, ret) := op.exec h
    let (h, rets) := execAll h ops
    (h, ret :: rets)

end Balancer
