import Balancer.Util.IntrusiveList

/-!
# Intrusive lists and lists

Whatever is done to the items and the lists, in any order, the memory holds rings: one for each
list, with its items in the order that the same operations on lists give, and perhaps rings of items
that are in no list. An item can be linked next to an item that is in no list; it is in no list
then.
-/

namespace Balancer

open LinkedRing Links TIntrusiveListItem
open Function (update_of_ne update update_apply update_self)

section

variable {ν : Type} [DecidableEq ν] {h : Links ν} {x p first last front back : ν}
  {c seg rest : List ν}

/-! ### The operations on rings -/

/-- `Unlink()` takes a node out of its ring. -/
theorem unlink_eq_detach (hx : h.IsRing (x :: c)) :
    TIntrusiveListItem.unlink h x = h.detach x x := by
  rw [TIntrusiveListItem.unlink]
  split
  · next hempty => rw [detach_self ⟨hempty.2, hempty.1⟩]
  · next hempty =>
    have hprev : h.prev x ≠ x := by
      intro hself
      have hnext := hx.linked_prev.1.1
      rw [hself] at hnext
      exact hempty ⟨hself, hnext⟩
    have hnext : (h.setNext (h.prev x) (h.next x)).next x = h.next x := update_of_ne hprev.symm _ _
    simp only [hnext]
    rfl

theorem linkBeforeNoUnlink_eq_paste : linkBeforeNoUnlink h x p = h.paste x x p := rfl

/-- The constructor and the destructor of a list that has no items. -/
theorem setEnd_eq_self (hx : h.IsRing [x]) : TIntrusiveListItem.setEnd h x = h := by
  obtain ⟨hnext, hprev⟩ := hx.closed x rfl x rfl
  ext n
  · show update h.next x x n = h.next n
    rw [update_apply]
    split
    · next hn => rw [hn, hnext]
    · rfl
  · show update h.prev x x n = h.prev n
    rw [update_apply]
    split
    · next hn => rw [hn, hprev]
    · rfl

theorem unlink_eq_self (hx : h.IsRing [x]) : TIntrusiveListItem.unlink h x = h := by
  rw [unlink_eq_detach hx, detach_self (hx.closed x rfl x rfl)]

/-- A node that is linked to itself stays alone. -/
theorem paste_self (hx : h.IsRing [x]) : h.paste x x x = h := by
  obtain ⟨hnext, hprev⟩ := hx.closed x rfl x rfl
  ext n
  · rw [paste_next, hprev]
    split
    · next hn => rw [hn, hnext]
    · rfl
  · rw [paste_prev, hprev]
    split
    · next hn => rw [hn, hprev]
    · rfl

/-- `Cut` writes what a ring of its own would be put together with, but not its two links. -/
theorem cut_eq_paste (hne : first ≠ last) (hback : h.Linked back last) (hp : p ≠ first) :
    TIntrusiveList.cut h first last p = (h.detach first back).paste first back p := by
  obtain ⟨hnext, hprev⟩ := hback
  have hpaste : (h.detach first back).prev p = update h.prev last (h.prev first) p := by
    rw [detach_prev, if_neg hp, hnext, update_apply]
  rw [TIntrusiveList.cut, if_neg hne]
  ext n
  · rw [paste_next, detach_next, hpaste, hnext]
    simp only [setNext, setPrev, hprev, update_apply]
    split
    · rfl
    · rfl
  · rw [paste_prev, hpaste, detach_prev, hnext]
    simp only [setNext, setPrev, hprev, update_apply]
    split
    · rfl
    · split
      · rfl
      · rfl

end

/-! ### Abstract lists -/

/-- Lists by their names. -/
abbrev TLists (ι κ : Type) := κ → List ι

section

variable {ι κ : Type} {h : Links (TListPlace ι κ)} {lists : TLists ι κ} {l l' : κ} {i : ι}
  {rest : List ι}

/-- The place in front of the items `v` at the end of a list. -/
def TListPlace.front (l : κ) : List ι → TListPlace ι κ
  | [] => .endOf l
  | i :: _ => .item i

/-- Every node is in a ring, and the ring of a list holds its items. -/
structure Represents (h : Links (TListPlace ι κ)) (lists : TLists ι κ) : Prop where
  partition : h.Partition
  ring : ∀ l, h.IsRing (.endOf l :: (lists l).map .item)

theorem Represents.nodup (hrep : Represents h lists) (l : κ) : (lists l).Nodup :=
  List.Nodup.of_map _ (List.nodup_cons.1 (hrep.ring l).nodup).2

/-- An item is in one list only. -/
theorem Represents.eq_of_mem (hrep : Represents h lists) (hi : i ∈ lists l) (hi' : i ∈ lists l') :
    l = l' := by
  by_contra hne
  have hend : (.endOf l : TListPlace ι κ) ∉ .endOf l' :: (lists l').map .item := by simp [hne]
  exact (hrep.ring l).disjoint (hrep.ring l') hend (m := .item i) (by simpa using hi)
    (by simpa using hi')

theorem Represents.next_endOf (hrep : Represents h lists) (l : κ) :
    h.next (.endOf l) = .front l (lists l) := by
  have hring := hrep.ring l
  cases hl : lists l with
  | nil =>
    rw [hl] at hring
    exact (hring.closed (.endOf l) rfl (.endOf l) rfl).1
  | cons i rest =>
    rw [hl] at hring
    exact (List.isChain_cons_cons.1 hring.path).1.1

theorem Represents.prev_endOf (hrep : Represents h lists) (hl : lists l = rest ++ [i]) :
    h.prev (.endOf l) = .item i := by
  have hring := hrep.ring l
  rw [hl, List.map_append] at hring
  have hlast : .item i ∈ (.endOf l :: (rest.map .item ++ [.item i]) :
      List (TListPlace ι κ)).getLast? := by
    rw [← List.cons_append, List.getLast?_concat]
    rfl
  exact (hring.closed (.item i) hlast (.endOf l) rfl).2

end

section Lists

variable {ι κ : Type} [DecidableEq ι] [DecidableEq κ]

def TLists.remove (seg : List ι) (lists : TLists ι κ) : TLists ι κ :=
  fun l => (lists l).filter (· ∉ seg)

/-- `x` is put in front of a place and `y` behind it. What is put next to an item that is in no list
is in no list. -/
def TLists.insert (x y : List ι) (lists : TLists ι κ) : TListPlace ι κ → TLists ι κ
  | .item i => fun l => insertAround i x y (lists l)
  | .endOf l => update lists l (y ++ (lists l ++ x))

/-- What an operation on lists does, and the item that it gives back. -/
inductive TListOp.Acts : TListOp ι κ → TLists ι κ → TLists ι κ → Option ι → Prop where
  | linkBefore {i place lists} : place ≠ .item i →
    Acts (.linkBefore i place) lists (TLists.insert [i] [] (lists.remove [i]) place) none
  | linkBefore_self {i lists} : Acts (.linkBefore i (.item i)) lists (lists.remove [i]) none
  | linkAfter {i place lists} : place ≠ .item i →
    Acts (.linkAfter i place) lists (TLists.insert [] [i] (lists.remove [i]) place) none
  | linkAfter_self {i lists} : Acts (.linkAfter i (.item i)) lists (lists.remove [i]) none
  | unlink {i lists} : Acts (.unlink i) lists (lists.remove [i]) none
  | pushBack {l i lists} :
    Acts (.pushBack l i) lists (update (lists.remove [i]) l (lists.remove [i] l ++ [i])) none
  | pushFront {l i lists} :
    Acts (.pushFront l i) lists (update (lists.remove [i]) l (i :: lists.remove [i] l)) none
  | popFront {l i rest lists} : lists l = i :: rest →
    Acts (.popFront l) lists (update lists l rest) (some i)
  | popBack {l i rest lists} : lists l = rest ++ [i] →
    Acts (.popBack l) lists (update lists l rest) (some i)
  | append {this lst lists} : this ≠ lst →
    Acts (.append this lst) lists (update (update lists this (lists this ++ lists lst)) lst []) none
  | append_self {this lists} : Acts (.append this this) lists lists none
  | swap {this lst lists} :
    Acts (.swap this lst) lists (update (update lists this (lists lst)) lst (lists this)) none
  | cut {l u seg v place lists} : lists l = u ++ (seg ++ v) → (∀ i ∈ seg, place ≠ .item i) →
    Acts (.cut (.front l (seg ++ v)) (.front l v) place) lists
      (TLists.insert seg [] (lists.remove seg) place) none

/-- The operations one after the other. -/
inductive TListOp.ActsAll : List (TListOp ι κ) → TLists ι κ → TLists ι κ → List (Option ι) →
    Prop where
  | nil {lists} : ActsAll [] lists lists []
  | cons {op ops lists lists' lists'' ret rets} : Acts op lists lists' ret →
    ActsAll ops lists' lists'' rets →
    ActsAll (op :: ops) lists lists'' (ret :: rets)

/-! ### The memory of the lists -/

variable {h h' : Links (TListPlace ι κ)} {lists : TLists ι κ} {l l' : κ} {i : ι}
  {seg u v rest : List ι}
  {front back : TListPlace ι κ} {c : List (TListPlace ι κ)}

theorem map_filter_item (seg l : List ι) :
    ((l.map .item).filter (· ∉ seg.map .item) : List (TListPlace ι κ)) =
    (l.filter (· ∉ seg)).map .item := by
  rw [List.filter_map]
  congr 1
  refine List.filter_congr fun i _ => ?_
  rw [Function.comp_apply, decide_eq_decide,
    List.mem_map_of_injective fun _ _ => TListPlace.item.inj]

theorem insertAround_map_item (i : ι) (x y l : List ι) :
    (insertAround (.item i) (x.map .item) (y.map .item) (l.map .item) : List (TListPlace ι κ)) =
      (insertAround i x y l).map .item := by
  induction l with
  | nil => rfl
  | cons j l ih =>
    simp only [List.map_cons, insertAround, TListPlace.item.injEq, ih]
    split
    · simp
    · simp

/-- Items that follow each other in a ring are taken out. -/
theorem Represents.detach (hrep : Represents h lists) (hring : h.IsRing (seg.map .item ++ c))
    (hfront : front ∈ (seg.map TListPlace.item).head?)
    (hback : back ∈ (seg.map TListPlace.item).getLast?) :
    Represents (h.detach front back) (lists.remove seg) ∧
      (h.detach front back).IsRing (seg.map .item) := by
  refine ⟨⟨Links.Partition.detach hring hfront hback hrep.partition, fun l => ?_⟩,
    (hring.detach hfront hback).1⟩
  have hview := hring.detach_view hfront hback (hrep.ring l) (by simp)
  rwa [map_filter_item] at hview

/-- Items are put next to a place, once the rings are known. -/
theorem Represents.insert {x y : List ι} (hrep : Represents h lists) (hpart : h'.Partition)
    (place : TListPlace ι κ)
    (hplace : ∀ c, h.IsRing (place :: c) → h'.IsRing (place :: (y.map .item ++ (c ++ x.map .item))))
    (hother : ∀ l c, .endOf l ≠ place → h.IsRing (.endOf l :: c) →
      h'.IsRing (.endOf l :: insertAround place (x.map .item) (y.map .item) c)) :
    Represents h' (TLists.insert x y lists place) := by
  refine ⟨hpart, fun l => ?_⟩
  cases place with
  | item j =>
    have hring := hother l _ (by simp) (hrep.ring l)
    rwa [insertAround_map_item] at hring
  | endOf l' =>
    by_cases hl : l = l'
    · subst hl
      have hring := hplace _ (hrep.ring l)
      simpa [TLists.insert] using hring
    · have hring := hother l _ (by simpa using hl) (hrep.ring l)
      rw [insertAround_of_notMem (by simp)] at hring
      rwa [TLists.insert, update_of_ne hl]

section Paste

variable {place : TListPlace ι κ} (hrep : Represents h lists) (hseg : h.IsRing (seg.map .item))
  (hfront : front ∈ (seg.map TListPlace.item).head?)
    (hback : back ∈ (seg.map TListPlace.item).getLast?)
  (hplace : place ∉ seg.map TListPlace.item)
include hrep hseg hfront hback hplace

theorem Represents.paste :
    Represents (h.paste front back place) (TLists.insert seg [] lists place) := by
  obtain ⟨c, hc⟩ := hrep.partition place
  have hdisj : ∀ m ∈ seg.map .item, m ∉ place :: c := fun m hm hmc => hc.disjoint hseg hplace hmc hm
  refine hrep.insert (Links.Partition.paste hseg hfront hback hc hdisj hrep.partition) place
    (fun c hc => ?_) ?_
  · have hdisj : ∀ m ∈ seg.map .item, m ∉ place :: c :=
      fun m hm hmc => hc.disjoint hseg hplace hmc hm
    exact hseg.paste hfront hback hc hdisj
  · exact fun l d hl hd => hseg.paste_view hfront hback hc hdisj hd (by simp) hl

theorem Represents.pasteAfter :
    Represents (h.paste front back (h.next place)) (TLists.insert [] seg lists place) := by
  obtain ⟨c, hc⟩ := hrep.partition place
  have hdisj : ∀ m ∈ seg.map .item, m ∉ place :: c := fun m hm hmc => hc.disjoint hseg hplace hmc hm
  have hnext : h.next place ∉ seg.map .item := fun hmem => hdisj _ hmem hc.linked_next.2
  obtain ⟨d, hd⟩ := hrep.partition (h.next place)
  have hdisj' : ∀ m ∈ seg.map .item, m ∉ h.next place :: d :=
    fun m hm hmd => hd.disjoint hseg hnext hmd hm
  refine hrep.insert (Links.Partition.paste hseg hfront hback hd hdisj' hrep.partition) place
    (fun c hc => ?_) ?_
  · have hdisj : ∀ m ∈ seg.map .item, m ∉ place :: c :=
      fun m hm hmc => hc.disjoint hseg hplace hmc hm
    rw [List.map_nil, List.append_nil]
    exact hseg.pasteAfter hfront hback hc hdisj
  · exact fun l d hl hd => hseg.pasteAfter_view hfront hback hc hdisj hd (by simp) hl

end Paste

theorem Represents.unlink (hrep : Represents h lists) (i : ι) :
    Represents (TIntrusiveListItem.unlink h (.item i)) (lists.remove [i]) ∧
      (TIntrusiveListItem.unlink h (.item i)).IsRing [.item i] := by
  obtain ⟨c, hc⟩ := hrep.partition (.item i)
  rw [unlink_eq_detach hc]
  have hring : h.IsRing ([i].map .item ++ c) := hc
  exact hrep.detach hring rfl rfl

section Link

variable {place : TListPlace ι κ} (hrep : Represents h lists)
include hrep

theorem Represents.linkBefore (hplace : place ≠ .item i) :
    Represents (linkBefore h (.item i) place) (TLists.insert [i] [] (lists.remove [i]) place) := by
  obtain ⟨hrep', hring⟩ := hrep.unlink i
  rw [← List.map_singleton] at hring
  exact hrep'.paste hring rfl rfl (by simpa using hplace)

theorem Represents.linkAfter (hplace : place ≠ .item i) :
    Represents (linkAfter h (.item i) place) (TLists.insert [] [i] (lists.remove [i]) place) := by
  obtain ⟨hrep', hring⟩ := hrep.unlink i
  rw [← List.map_singleton] at hring
  exact hrep'.pasteAfter hring rfl rfl (by simpa using hplace)

theorem Represents.linkBefore_self (i : ι) :
    Represents (TIntrusiveListItem.linkBefore h (.item i) (.item i)) (lists.remove [i]) := by
  obtain ⟨hrep', hring⟩ := hrep.unlink i
  rwa [TIntrusiveListItem.linkBefore, linkBeforeNoUnlink_eq_paste, paste_self hring]

theorem Represents.linkAfter_self (i : ι) :
    Represents (TIntrusiveListItem.linkAfter h (.item i) (.item i)) (lists.remove [i]) := by
  obtain ⟨hrep', hring⟩ := hrep.unlink i
  have hself := (hring.closed (.item i) rfl (.item i) rfl).1
  simp only [TIntrusiveListItem.linkAfter]
  rwa [hself, linkBeforeNoUnlink_eq_paste, paste_self hring]

end Link

/-- Removing what follows each other in one list. -/
theorem Represents.remove_eq (hrep : Represents h lists) (hl : lists l = u ++ (seg ++ v)) :
    lists.remove seg = update lists l (u ++ v) := by
  have hmem : ∀ i ∈ seg, i ∈ lists l := fun i hi => by simp [hl, hi]
  funext l'
  by_cases hne : l' = l
  · subst hne
    have hnodup := hrep.nodup l'
    rw [hl] at hnodup
    obtain ⟨-, hnodup, hu⟩ := List.nodup_append.1 hnodup
    obtain ⟨-, -, hv⟩ := List.nodup_append.1 hnodup
    have hseg : seg.filter (· ∉ seg) = [] := by simp
    have hu : u.filter (· ∉ seg) = u := List.filter_eq_self.2 fun i hi => by
      simpa using fun hi' => hu i hi i (List.mem_append_left _ hi') rfl
    have hv : v.filter (· ∉ seg) = v := List.filter_eq_self.2 fun i hi => by
      simpa using fun hi' => hv i hi' i hi rfl
    rw [update_self, TLists.remove, hl, List.filter_append, List.filter_append, hu, hseg, hv,
      List.nil_append]
  · rw [update_of_ne hne, TLists.remove, List.filter_eq_self]
    intro i hi
    simpa using fun hi' => hne (hrep.eq_of_mem hi (hmem i hi'))

@[simp] theorem TLists.insert_nil (lists : TLists ι κ) (place : TListPlace ι κ) :
    lists.insert [] [] place = lists := by
  cases place with
  | item i =>
    funext l
    show insertAround i [] [] (lists l) = lists l
    induction lists l with
    | nil => rfl
    | cons j rest ih =>
      rw [insertAround, ih]
      exact ite_self _
  | endOf l => simp [TLists.insert]

omit [DecidableEq κ] in
@[simp] theorem TLists.remove_nil (lists : TLists ι κ) : lists.remove [] = lists := by
  funext l
  simp [TLists.remove]

theorem Represents.cut (hrep : Represents h lists) (place : TListPlace ι κ)
    (hl : lists l = u ++ (seg ++ v)) (hplace : ∀ i ∈ seg, place ≠ .item i) :
    Represents (TIntrusiveList.cut h (.front l (seg ++ v)) (.front l v) place)
      (TLists.insert seg [] (lists.remove seg) place) := by
  cases hseg : seg with
  | nil => simpa [TIntrusiveList.cut] using hrep
  | cons j seg' =>
    rw [← hseg]
    have hne : seg ≠ [] := by simp [hseg]
    have hring := hrep.ring l
    have hsplit : (.endOf l :: (lists l).map .item : List (TListPlace ι κ)) =
        (.endOf l :: u.map .item) ++ (seg.map .item ++ v.map .item) := by
      simp [hl]
    rw [hsplit] at hring
    have hring := hring.rotate
    rw [List.append_assoc] at hring
    -- the place behind the range is the first one of what stays
    have hlast : .front l v ∈
        (v.map .item ++ .endOf l :: u.map .item : List (TListPlace ι κ)).head? := by
      cases v <;> rfl
    have hmap : seg.map TListPlace.item ≠ ([] : List (TListPlace ι κ)) := by simpa using hne
    have hback : (.item (seg.getLast hne) : TListPlace ι κ) ∈
        (seg.map TListPlace.item).getLast? := by
      simp [List.getLast?_eq_some_getLast hne]
    have hfront : .front l (seg ++ v) ∈ (seg.map (TListPlace.item : ι → TListPlace ι κ)).head? := by
      simp [hseg, TListPlace.front]
    have hplace' : place ∉ seg.map TListPlace.item := by
      intro hmem
      obtain ⟨i, hi, rfl⟩ := List.mem_map.1 hmem
      exact hplace i hi rfl
    obtain ⟨-, -, hlink, -, hnodup⟩ := (isRing_append_iff hmap (by simp)).1 hring
    have hfirst : .front l (seg ++ v) ≠ (.front l v : TListPlace ι κ) :=
      (List.nodup_append.1 hnodup).2.2 _ (List.mem_of_mem_head? hfront) _
        (List.mem_of_mem_head? hlast)
    have hplace'' : place ≠ .front l (seg ++ v) :=
      fun heq => hplace' (heq ▸ List.mem_of_mem_head? hfront)
    rw [cut_eq_paste hfirst (hlink _ hback _ hlast) hplace'']
    obtain ⟨hrep', hring'⟩ := hrep.detach hring hfront hback
    exact hrep'.paste hring' hfront hback hplace'

/-- The items of `lst` behind those of `this`, which may be the same list. -/
def TLists.append (this lst : κ) (lists : TLists ι κ) : TLists ι κ :=
  TLists.insert (lists lst) [] (update lists lst []) (.endOf this)

theorem append_apply (this lst : κ) (lists : TLists ι κ) (l : κ) : TLists.append this lst lists l =
    if l = this then if this = lst then lists this else lists this ++ lists lst
    else if l = lst then [] else lists l := by
  simp only [TLists.append, TLists.insert, update_apply, List.nil_append]
  split
  · split
    · next h => rw [h, List.nil_append]
    · rfl
  · rfl

theorem append_of_ne {this lst : κ} (hne : this ≠ lst) (lists : TLists ι κ) :
    TLists.append this lst lists = update (update lists this (lists this ++ lists lst)) lst [] := by
  rw [TLists.append, TLists.insert, update_of_ne hne, List.nil_append, Function.update_comm hne]

theorem append_same (this : κ) (lists : TLists ι κ) : TLists.append this this lists = lists := by
  rw [TLists.append, TLists.insert, update_self, Function.update_idem, List.nil_append,
    List.nil_append, Function.update_eq_self]

theorem Represents.append (hrep : Represents h lists) (this lst : κ) :
    Represents (TIntrusiveList.append h (.endOf this) (.endOf lst))
      (TLists.append this lst lists) := by
  have hl : lists lst = [] ++ (lists lst ++ []) := by simp
  have hcut := hrep.cut (.endOf this) hl (by simp)
  rwa [List.append_nil, ← hrep.next_endOf, hrep.remove_eq hl] at hcut

/-- The list `tmp` takes part in three appends and is empty before and after. -/
theorem Represents.swap {tmp this lst : κ} (hrep : Represents h lists) (htmp : lists tmp = [])
    (hthis : this ≠ tmp) (hlst : lst ≠ tmp) :
    Represents (TIntrusiveList.swap h (.endOf tmp) (.endOf this) (.endOf lst))
      (update (update lists this (lists lst)) lst (lists this)) := by
  have hring := hrep.ring tmp
  rw [htmp, List.map_nil] at hring
  have happends := ((hrep.append tmp lst).append lst this).append this tmp
  have hlists : TLists.append this tmp (TLists.append lst this (TLists.append tmp lst lists)) =
      update (update lists this (lists lst)) lst (lists this) := by
    funext l
    simp only [append_apply, update_apply]
    grind
  have hend := happends.ring tmp
  rw [append_apply, if_neg hthis.symm, if_pos rfl, List.map_nil] at hend
  rw [TIntrusiveList.swap, setEnd_eq_self hring, unlink_eq_self hend, ← hlists]
  exact happends

end Lists

/-! ### Runs -/

section Runs

variable {ι Λ : Type}

/-- The lists of a caller beside the list of `Swap`. -/
def TLists.withTmp (lists : TLists ι Λ) : TLists ι (Option Λ) := fun l => l.elim [] lists

theorem node_front (l : Λ) (v : List ι) : (TListPlace.front l v).node = .front (some l) v := by
  cases v <;> rfl

theorem node_ne_item {place : TListPlace ι Λ} {i : ι} (h : place ≠ .item i) :
    place.node ≠ .item i := by
  cases place with
  | item j => simpa [TListPlace.node] using h
  | endOf l => simp [TListPlace.node]

theorem withTmp_remove [DecidableEq ι] (seg : List ι) (lists : TLists ι Λ) :
    (lists.remove seg).withTmp = lists.withTmp.remove seg := by
  funext l
  cases l <;> rfl

theorem withTmp_update [DecidableEq Λ] (lists : TLists ι Λ) (l : Λ) (xs : List ι) :
    TLists.withTmp (update lists l xs) = update lists.withTmp (some l) xs := by
  funext l'
  cases l' with
  | none => rfl
  | some l' => simp [TLists.withTmp, update_apply]

variable [DecidableEq ι] [DecidableEq Λ] {h : Links (TListNode ι Λ)} {lists lists' : TLists ι Λ}

theorem withTmp_insert (x y : List ι) (lists : TLists ι Λ) (place : TListPlace ι Λ) :
    (TLists.insert x y lists place).withTmp = TLists.insert x y lists.withTmp place.node := by
  cases place with
  | item i =>
    funext l
    cases l <;> rfl
  | endOf l => exact withTmp_update lists l _

/-- An operation on the memory does what it does to lists. -/
theorem Represents.exec {op : TListOp ι Λ} {ret : Option ι} (hrep : Represents h lists.withTmp)
    (hacts : op.Acts lists lists' ret) :
    Represents (op.exec h).1 lists'.withTmp ∧ (op.exec h).2 = ret.map .item := by
  cases hacts with
  | linkBefore hplace =>
    rw [withTmp_insert, withTmp_remove]
    exact ⟨hrep.linkBefore (node_ne_item hplace), rfl⟩
  | linkBefore_self =>
    rw [withTmp_remove]
    exact ⟨hrep.linkBefore_self _, rfl⟩
  | linkAfter hplace =>
    rw [withTmp_insert, withTmp_remove]
    exact ⟨hrep.linkAfter (node_ne_item hplace), rfl⟩
  | linkAfter_self =>
    rw [withTmp_remove]
    exact ⟨hrep.linkAfter_self _, rfl⟩
  | unlink =>
    rw [withTmp_remove]
    exact ⟨(hrep.unlink _).1, rfl⟩
  | @pushBack l i =>
    rw [withTmp_update, withTmp_remove]
    have hlink : (.endOf (some l) : TListNode ι Λ) ≠ .item i := by simp
    exact ⟨hrep.linkBefore hlink, rfl⟩
  | @pushFront l i =>
    rw [withTmp_update, withTmp_remove]
    have hlink : (.endOf (some l) : TListNode ι Λ) ≠ .item i := by simp
    have hrep' := hrep.linkAfter hlink
    rw [TLists.insert, List.append_nil] at hrep'
    exact ⟨hrep', rfl⟩
  | @popFront l i rest _ hl =>
    have hl' : lists.withTmp (some l) = [] ++ ([i] ++ rest) := hl
    have hnext : h.next (.endOf (some l)) = .item i := by
      rw [hrep.next_endOf, hl']
      rfl
    rw [withTmp_update, TListOp.exec, TIntrusiveList.popFront, hnext, ← List.nil_append rest,
      ← hrep.remove_eq hl']
    exact ⟨(hrep.unlink i).1, rfl⟩
  | @popBack l i rest _ hl =>
    have hl' : lists.withTmp (some l) = rest ++ ([i] ++ []) := hl
    rw [withTmp_update, TListOp.exec, TIntrusiveList.popBack, hrep.prev_endOf hl',
      ← List.append_nil rest, ← hrep.remove_eq hl']
    exact ⟨(hrep.unlink i).1, rfl⟩
  | @append this lst _ hne =>
    rw [withTmp_update, withTmp_update]
    have hne' := mt Option.some.inj hne
    have hrep' := hrep.append (some this) (some lst)
    rw [append_of_ne hne'] at hrep'
    exact ⟨hrep', rfl⟩
  | @append_self this =>
    have hrep' := hrep.append (some this) (some this)
    rw [append_same] at hrep'
    exact ⟨hrep', rfl⟩
  | swap =>
    rw [withTmp_update, withTmp_update]
    exact ⟨hrep.swap rfl (by simp) (by simp), rfl⟩
  | cut hl hplace =>
    rw [withTmp_insert, withTmp_remove]
    have hl' : lists.withTmp (some _) = _ := hl
    refine ⟨?_, rfl⟩
    rw [TListOp.exec, node_front, node_front]
    exact hrep.cut _ hl' fun i hi => node_ne_item (hplace i hi)

theorem Represents.execAll {ops : List (TListOp ι Λ)} {rets : List (Option ι)}
    (hrep : Represents h lists.withTmp) (hacts : TListOp.ActsAll ops lists lists' rets) :
    Represents (TListOp.execAll h ops).1 lists'.withTmp ∧
      (TListOp.execAll h ops).2 = rets.map (Option.map .item) := by
  induction hacts generalizing h with
  | nil => exact ⟨hrep, rfl⟩
  | cons hop _ ih =>
    obtain ⟨hrep', hret⟩ := hrep.exec hop
    obtain ⟨hrep'', hrets⟩ := ih hrep'
    refine ⟨hrep'', ?_⟩
    rw [TListOp.execAll, List.map_cons, ← hret, ← hrets]

/-- Items and lists that have just been constructed. -/
def TListNode.fresh (ι Λ : Type) : Links (TListNode ι Λ) := ⟨id, id⟩

omit [DecidableEq ι] [DecidableEq Λ] in
theorem represents_fresh : Represents (TListNode.fresh ι Λ) (TLists.withTmp fun _ => []) := by
  have hring : ∀ n, (TListNode.fresh ι Λ).IsRing [n] := fun n =>
    ⟨.singleton n, fun a ha b hb => by cases ha; cases hb; exact ⟨rfl, rfl⟩, List.nodup_singleton n⟩
  refine ⟨fun n => ⟨[], hring n⟩, fun l => ?_⟩
  cases l <;> exact hring _

/-- Whatever is done to the items and the lists, the memory holds the lists that the same operations
on lists give. -/
theorem execAll_represents (ops : List (TListOp ι Λ)) (lists : TLists ι Λ) (rets : List (Option ι))
    (hacts : TListOp.ActsAll ops (fun _ => []) lists rets) :
    let h := (TListOp.execAll (TListNode.fresh ι Λ) ops).1
    (TListOp.execAll (TListNode.fresh ι Λ) ops).2 = rets.map (Option.map .item) ∧
      (∀ n, h.prev (h.next n) = n ∧ h.next (h.prev n) = n) ∧
      (∀ l, h.IsRing (.endOf (some l) :: (lists l).map .item)) ∧
      (∀ l, (lists l).Nodup) ∧ ∀ i l l', i ∈ lists l → i ∈ lists l' → l = l' := by
  obtain ⟨hrep, hrets⟩ := represents_fresh.execAll hacts
  refine ⟨hrets, hrep.partition.inverse, fun l => hrep.ring (some l), fun l => hrep.nodup (some l),
    ?_⟩
  intro i l l' hi hi'
  have hsome : some l = some l' := hrep.eq_of_mem hi hi'
  exact Option.some.inj hsome

/-- Two items are pushed to one list, the first of them is cut out to another list and popped
there. -/
theorem execAll_represents_cut : ∃ lists, TListOp.ActsAll
    [.pushBack true 1, .pushFront true 2, .cut (.item 2) (.item 1) (.endOf false),
      .popFront false] (fun _ => []) lists [none, none, none, some 2] ∧
    (TListOp.execAll (TListNode.fresh ℕ Bool)
      [.pushBack true 1, .pushFront true 2, .cut (.item 2) (.item 1) (.endOf false),
        .popFront false]).2 =
      [none, none, none, some (.item 2)] := by
  have hacts : ∃ lists : TLists ℕ Bool, TListOp.ActsAll
      [.pushBack true 1, .pushFront true 2, .cut (.item 2) (.item 1) (.endOf false),
        .popFront false] (fun _ => []) lists [none, none, none, some 2] :=
    ⟨_, .cons .pushBack (.cons .pushFront (.cons
      (@TListOp.Acts.cut ℕ Bool _ _ true [] [2] [1] (.endOf false) _ rfl (by simp))
      (.cons (@TListOp.Acts.popFront ℕ Bool _ _ false 2 [] _ rfl) .nil)))⟩
  obtain ⟨lists, hacts⟩ := hacts
  exact ⟨lists, hacts, (execAll_represents _ _ _ hacts).1⟩

end Runs

end Balancer
