import Mathlib

/-!
# Rings of linked nodes

Nodes that know the one behind them and the one in front of them. A ring is a list of different
nodes, each one linked to the next and the last one to the first. Two operations change rings:
`detach` makes a ring of its own of some nodes that follow each other, and `paste` puts such a ring
in front of a node of another one. A node sees the others of its ring in one order only, and what
the operations do is said by this order.
-/

namespace LinkedRing

@[ext] structure Links (ν : Type*) where
  next : ν → ν
  prev : ν → ν

namespace Links

section Rings

variable {ν : Type*} {h h' : Links ν} {a b m n : ν} {c c' d u v : List ν}

/-- `b` is behind `a`, and both know it. -/
def Linked (h : Links ν) (a b : ν) : Prop := h.next a = b ∧ h.prev b = a

structure IsRing (h : Links ν) (c : List ν) : Prop where
  path : c.IsChain h.Linked
  closed : ∀ a ∈ c.getLast?, ∀ b ∈ c.head?, h.Linked a b
  nodup : c.Nodup

/-- Every node is in a ring. -/
def Partition (h : Links ν) : Prop := ∀ n, ∃ c, h.IsRing (n :: c)

theorem isRing_nil : h.IsRing [] where
  path := .nil
  closed := by simp
  nodup := List.nodup_nil

theorem isRing_append_iff (hu : u ≠ []) (hv : v ≠ []) :
    h.IsRing (u ++ v) ↔ u.IsChain h.Linked ∧ v.IsChain h.Linked ∧
      (∀ a ∈ u.getLast?, ∀ b ∈ v.head?, h.Linked a b) ∧
      (∀ a ∈ v.getLast?, ∀ b ∈ u.head?, h.Linked a b) ∧ (u ++ v).Nodup := by
  have hlast : (u ++ v).getLast? = v.getLast? := List.getLast?_append_of_ne_nil u hv
  have hhead : (u ++ v).head? = u.head? := List.head?_append_of_ne_nil u hu
  constructor
  · intro hring
    obtain ⟨hpath, hpath', hlink⟩ := List.isChain_append.1 hring.path
    refine ⟨hpath, hpath', hlink, ?_, hring.nodup⟩
    have hclosed := hring.closed
    rwa [hlast, hhead] at hclosed
  · rintro ⟨hpath, hpath', hlink, hclosed, hnodup⟩
    refine ⟨List.isChain_append.2 ⟨hpath, hpath', hlink⟩, ?_, hnodup⟩
    rwa [hlast, hhead]

theorem IsRing.rotate (hring : h.IsRing (u ++ v)) : h.IsRing (v ++ u) := by
  by_cases hu : u = []
  · subst hu
    rwa [List.append_nil]
  by_cases hv : v = []
  · subst hv
    rwa [List.append_nil] at hring
  obtain ⟨hpath, hpath', hlink, hclosed, hnodup⟩ := (isRing_append_iff hu hv).1 hring
  exact (isRing_append_iff hv hu).2 ⟨hpath', hpath, hclosed, hlink, List.nodup_append_comm.1 hnodup⟩

/-- The ring as one of its nodes sees it. -/
theorem IsRing.from_mem (hring : h.IsRing d) (hn : n ∈ d) :
    ∃ u v, d = u ++ n :: v ∧ h.IsRing (n :: (v ++ u)) := by
  obtain ⟨u, v, rfl⟩ := List.append_of_mem hn
  exact ⟨u, v, rfl, hring.rotate⟩

/-- Following the links from `a` on, `n` is reached behind the same nodes. -/
theorem eq_of_path (hc : (a :: c).IsChain h.Linked) (hlast : ∀ x ∈ (a :: c).getLast?, h.Linked x n)
    (hn : n ∉ c) (hc' : (a :: c').IsChain h.Linked)
    (hlast' : ∀ x ∈ (a :: c').getLast?, h.Linked x n) (hn' : n ∉ c') : c = c' := by
  induction c generalizing a c' with
  | nil =>
    have hnext : h.next a = n := (hlast a rfl).1
    cases c' with
    | nil => rfl
    | cons y c' =>
      obtain ⟨hy, -⟩ := List.isChain_cons_cons.1 hc'
      rw [← hnext, hy.1] at hn'
      exact absurd List.mem_cons_self hn'
  | cons x c ih =>
    obtain ⟨hx, hc⟩ := List.isChain_cons_cons.1 hc
    cases c' with
    | nil =>
      have hnext : h.next a = n := (hlast' a rfl).1
      rw [← hnext, hx.1] at hn
      exact absurd List.mem_cons_self hn
    | cons y c' =>
      obtain ⟨hy, hc'⟩ := List.isChain_cons_cons.1 hc'
      obtain rfl : x = y := hx.1.symm.trans hy.1
      rw [List.getLast?_cons_cons] at hlast hlast'
      rw [ih hc hlast (List.not_mem_of_not_mem_cons hn) hc' hlast'
        (List.not_mem_of_not_mem_cons hn')]

theorem IsRing.unique (hc : h.IsRing (n :: c)) (hc' : h.IsRing (n :: c')) : c = c' :=
  eq_of_path hc.path (fun x hx => hc.closed x hx n rfl) (List.nodup_cons.1 hc.nodup).1
    hc'.path (fun x hx => hc'.closed x hx n rfl) (List.nodup_cons.1 hc'.nodup).1

/-- What a node of a ring sees. -/
theorem IsRing.view (hring : h.IsRing d) (hc : h.IsRing (n :: c)) (hn : n ∈ d) :
    ∃ u v, d = u ++ n :: v ∧ c = v ++ u := by
  obtain ⟨u, v, rfl, hring'⟩ := hring.from_mem hn
  exact ⟨u, v, rfl, hc.unique hring'⟩

/-- A node is in one ring only. -/
theorem IsRing.disjoint (hc : h.IsRing (n :: c)) (hring : h.IsRing d) (hn : n ∉ d)
    (hm : m ∈ n :: c) : m ∉ d := by
  intro hmd
  obtain ⟨u, v, hsplit, hring'⟩ := hc.from_mem hm
  obtain ⟨u', v', rfl, hview⟩ := hring.view hring' hmd
  have hmem : n ∈ u ++ m :: v := hsplit ▸ List.mem_cons_self
  apply hn
  have hperm : (u ++ m :: v).Perm (u' ++ m :: v') := by
    refine List.perm_middle.trans (.trans (.cons m ?_) List.perm_middle.symm)
    exact List.perm_append_comm.trans (hview ▸ List.perm_append_comm)
  exact hperm.mem_iff.1 hmem

theorem IsRing.linked_next (hring : h.IsRing (a :: c)) :
    h.Linked a (h.next a) ∧ h.next a ∈ a :: c := by
  cases c with
  | nil =>
    have hself := hring.closed a rfl a rfl
    rw [hself.1]
    exact ⟨hself, List.mem_cons_self⟩
  | cons b c =>
    have hlink := (List.isChain_cons_cons.1 hring.path).1
    rw [hlink.1]
    exact ⟨hlink, List.mem_cons_of_mem _ List.mem_cons_self⟩

theorem IsRing.linked_prev (hring : h.IsRing (b :: c)) :
    h.Linked (h.prev b) b ∧ h.prev b ∈ b :: c := by
  have hlast := List.getLast?_eq_some_getLast (List.cons_ne_nil b c)
  have hlink := hring.closed _ hlast b rfl
  rw [hlink.2]
  exact ⟨hlink, List.getLast_mem _⟩

theorem IsRing.next_mem (hring : h.IsRing c) (ha : a ∈ c) : h.next a ∈ c := by
  obtain ⟨u, v, rfl, hring'⟩ := hring.from_mem ha
  have hmem := hring'.linked_next.2
  simp only [List.mem_cons, List.mem_append] at hmem ⊢
  tauto

theorem IsRing.prev_mem (hring : h.IsRing c) (hb : b ∈ c) : h.prev b ∈ c := by
  obtain ⟨u, v, rfl, hring'⟩ := hring.from_mem hb
  have hmem := hring'.linked_prev.2
  simp only [List.mem_cons, List.mem_append] at hmem ⊢
  tauto

/-- The two directions are inverse to each other. -/
theorem Partition.inverse (hpart : h.Partition) (n : ν) :
    h.prev (h.next n) = n ∧ h.next (h.prev n) = n := by
  obtain ⟨c, hc⟩ := hpart n
  exact ⟨hc.linked_next.1.2, hc.linked_prev.1.1⟩

/-- A path depends on the links between its nodes only. -/
theorem path_congr (hpath : c.IsChain h.Linked) (hnext : ∀ a ∈ c.dropLast, h'.next a = h.next a)
    (hprev : ∀ b ∈ c.tail, h'.prev b = h.prev b) : c.IsChain h'.Linked := by
  induction c with
  | nil => exact .nil
  | cons a c ih =>
    cases c with
    | nil => exact .singleton a
    | cons b c =>
      obtain ⟨hlink, hpath⟩ := List.isChain_cons_cons.1 hpath
      rw [List.dropLast_cons_cons, List.forall_mem_cons] at hnext
      rw [List.tail_cons, List.forall_mem_cons] at hprev
      refine List.isChain_cons_cons.2 ⟨⟨hnext.1.trans hlink.1, hprev.1.trans hlink.2⟩,
        ih hpath hnext.2 hprev.2⟩

theorem IsRing.congr (hring : h.IsRing c) (hnext : ∀ a ∈ c, h'.next a = h.next a)
    (hprev : ∀ b ∈ c, h'.prev b = h.prev b) : h'.IsRing c where
  path := path_congr hring.path (fun a ha => hnext a (List.dropLast_subset c ha))
    fun b hb => hprev b (List.mem_of_mem_tail hb)
  closed a ha b hb := by
    obtain ⟨hlink, hlink'⟩ := hring.closed a ha b hb
    exact ⟨(hnext a (List.mem_of_mem_getLast? ha)).trans hlink,
      (hprev b (List.mem_of_mem_head? hb)).trans hlink'⟩
  nodup := hring.nodup

theorem notMem_dropLast (hnodup : c.Nodup) (hb : b ∈ c.getLast?) : b ∉ c.dropLast := by
  rw [← List.dropLast_append_getLast? b hb, List.nodup_append] at hnodup
  exact fun hmem => hnodup.2.2 b hmem b List.mem_cons_self rfl

theorem notMem_tail (hnodup : c.Nodup) (ha : a ∈ c.head?) : a ∉ c.tail := by
  rw [List.eq_cons_of_mem_head? ha] at hnodup
  exact (List.nodup_cons.1 hnodup).1

end Rings

/-! ### Taking nodes out -/

section Detach

variable {ν : Type*} [DecidableEq ν] {h : Links ν} {front back n : ν} {seg rest c d : List ν}

def setNext (h : Links ν) (a b : ν) : Links ν := { h with next := Function.update h.next a b }

def setPrev (h : Links ν) (a b : ν) : Links ν := { h with prev := Function.update h.prev a b }

/-- The nodes from `front` to `back` become a ring of their own, and the gap is closed. -/
def detach (h : Links ν) (front back : ν) : Links ν :=
  (((h.setNext (h.prev front) (h.next back)).setPrev (h.next back) (h.prev front)).setNext
    back front).setPrev front back

theorem detach_next (h : Links ν) (front back n : ν) : (h.detach front back).next n =
    if n = back then front else if n = h.prev front then h.next back else h.next n := by
  simp only [detach, setNext, setPrev, Function.update_apply]

theorem detach_prev (h : Links ν) (front back n : ν) : (h.detach front back).prev n =
    if n = front then back else if n = h.next back then h.prev front else h.prev n := by
  simp only [detach, setNext, setPrev, Function.update_apply]

/-- A whole ring stays as it is. -/
theorem detach_self (hlink : h.Linked back front) : h.detach front back = h := by
  obtain ⟨hnext, hprev⟩ := hlink
  ext n
  · rw [detach_next, hprev, hnext]
    split
    · next hn => rw [hn, hnext]
    · rfl
  · rw [detach_prev, hprev, hnext]
    split
    · next hn => rw [hn, hprev]
    · rfl

section

variable (hring : h.IsRing (seg ++ rest)) (hfront : front ∈ seg.head?) (hback : back ∈ seg.getLast?)
include hring hfront hback

theorem IsRing.detach : (h.detach front back).IsRing seg ∧ (h.detach front back).IsRing rest := by
  have hseg : seg ≠ [] := List.ne_nil_of_mem (List.mem_of_mem_head? hfront)
  by_cases hrest : rest = []
  · subst hrest
    rw [List.append_nil] at hring
    rw [detach_self (hring.closed back hback front hfront)]
    exact ⟨hring, isRing_nil⟩
  obtain ⟨hpath, hpath', hlink, hclosed, hnodup⟩ := (isRing_append_iff hseg hrest).1 hring
  obtain ⟨hnodup, hnodup', hdisj⟩ := List.nodup_append.1 hnodup
  have hgapBack : rest.head hrest ∈ rest.head? := List.head?_eq_some_head hrest
  have hgapFront : rest.getLast hrest ∈ rest.getLast? := List.getLast?_eq_some_getLast hrest
  have hnext : h.next back = rest.head hrest := (hlink back hback _ hgapBack).1
  have hprev : h.prev front = rest.getLast hrest := (hclosed _ hgapFront front hfront).2
  -- the gap is in `rest`, and so none of its nodes is in `seg`
  constructor
  · refine ⟨path_congr hpath (fun a ha => ?_) fun b hb => ?_, fun a ha b hb => ?_, hnodup⟩
    · have ha' : a ∈ seg := List.dropLast_subset seg ha
      rw [detach_next, if_neg (ne_of_mem_of_not_mem ha (notMem_dropLast hnodup hback)), if_neg]
      rw [hprev]
      exact hdisj a ha' _ (List.getLast_mem hrest)
    · have hb' : b ∈ seg := List.mem_of_mem_tail hb
      rw [detach_prev, if_neg (ne_of_mem_of_not_mem hb (notMem_tail hnodup hfront)), if_neg]
      rw [hnext]
      exact hdisj b hb' _ (List.head_mem hrest)
    · obtain rfl : a = back := Option.mem_unique ha hback
      obtain rfl : b = front := Option.mem_unique hb hfront
      exact ⟨by rw [detach_next, if_pos rfl], by rw [detach_prev, if_pos rfl]⟩
  · have hnotBack : ∀ a ∈ rest, a ≠ back :=
      fun a ha heq => hdisj back (List.mem_of_mem_getLast? hback) a ha heq.symm
    have hnotFront : ∀ b ∈ rest, b ≠ front :=
      fun b hb heq => hdisj front (List.mem_of_mem_head? hfront) b hb heq.symm
    refine ⟨path_congr hpath' (fun a ha => ?_) fun b hb => ?_, fun a ha b hb => ?_, hnodup'⟩
    · rw [detach_next, if_neg (hnotBack a (List.dropLast_subset rest ha)), if_neg]
      rw [hprev]
      exact ne_of_mem_of_not_mem ha (notMem_dropLast hnodup' hgapFront)
    · rw [detach_prev, if_neg (hnotFront b (List.mem_of_mem_tail hb)), if_neg]
      rw [hnext]
      exact ne_of_mem_of_not_mem hb (notMem_tail hnodup' hgapBack)
    · obtain rfl : a = rest.getLast hrest := Option.mem_unique ha hgapFront
      obtain rfl : b = rest.head hrest := Option.mem_unique hb hgapBack
      constructor
      · rw [detach_next, if_neg (hnotBack _ (List.getLast_mem hrest)), if_pos hprev.symm, hnext]
      · rw [detach_prev, if_neg (hnotFront _ (List.head_mem hrest)), if_pos hnext.symm, hprev]

/-- Other rings are not touched. -/
theorem IsRing.detach_other (hc : h.IsRing c) (hdisj : ∀ m ∈ c, m ∉ seg ++ rest) :
    (h.detach front back).IsRing c := by
  have hfront' : front ∈ seg ++ rest := List.mem_append_left _ (List.mem_of_mem_head? hfront)
  have hback' : back ∈ seg ++ rest := List.mem_append_left _ (List.mem_of_mem_getLast? hback)
  refine hc.congr (fun a ha => ?_) fun b hb => ?_
  · rw [detach_next, if_neg (ne_of_mem_of_not_mem hback' (hdisj a ha)).symm,
      if_neg (ne_of_mem_of_not_mem (hring.prev_mem hfront') (hdisj a ha)).symm]
  · rw [detach_prev, if_neg (ne_of_mem_of_not_mem hfront' (hdisj b hb)).symm,
      if_neg (ne_of_mem_of_not_mem (hring.next_mem hback') (hdisj b hb)).symm]

/-- A node that stays sees the others that stay. -/
theorem IsRing.detach_view (hc : h.IsRing (n :: c)) (hn : n ∉ seg) :
    (h.detach front back).IsRing (n :: c.filter (· ∉ seg)) := by
  obtain ⟨-, -, hdisj⟩ := List.nodup_append.1 hring.nodup
  by_cases hmem : n ∈ seg ++ rest
  · have hrest : n ∈ rest := (List.mem_append.1 hmem).resolve_left hn
    obtain ⟨-, hring'⟩ := hring.detach hfront hback
    obtain ⟨u, v, rfl, hview⟩ := hring'.from_mem hrest
    have hc' : c = v ++ (seg ++ u) := by
      rw [← List.append_assoc] at hring
      have hrotate := hring.rotate
      rw [List.cons_append] at hrotate
      exact hc.unique hrotate
    have hu : u.filter (· ∉ seg) = u := List.filter_eq_self.2 fun m hm => by
      simpa using fun hseg => hdisj m hseg m (by simp [hm]) rfl
    have hv : v.filter (· ∉ seg) = v := List.filter_eq_self.2 fun m hm => by
      simpa using fun hseg => hdisj m hseg m (by simp [hm]) rfl
    have hseg : seg.filter (· ∉ seg) = [] := List.filter_eq_nil_iff.2 fun m hm => by simpa using hm
    rwa [hc', List.filter_append, List.filter_append, hu, hv, hseg, List.nil_append]
  · have hother := fun m hm => hc.disjoint hring hmem (m := m) hm
    have hfilter : c.filter (· ∉ seg) = c := List.filter_eq_self.2 fun m hm => by
      have := hother m (List.mem_cons_of_mem n hm)
      simp only [List.mem_append, not_or] at this
      simpa using this.1
    rw [hfilter]
    exact hring.detach_other hfront hback hc hother

theorem Partition.detach (hpart : h.Partition) : (h.detach front back).Partition := by
  intro n
  by_cases hn : n ∈ seg
  · obtain ⟨u, v, -, hview⟩ := (hring.detach hfront hback).1.from_mem hn
    exact ⟨v ++ u, hview⟩
  · obtain ⟨c, hc⟩ := hpart n
    exact ⟨_, hring.detach_view hfront hback hc hn⟩

end

end Detach

/-! ### Putting nodes in -/

section Paste

variable {ν : Type*} [DecidableEq ν] {h : Links ν} {front back n p : ν} {seg c d : List ν}

/-- The ring from `front` to `back` is put in front of `p`. -/
def paste (h : Links ν) (front back p : ν) : Links ν :=
  (((h.setNext (h.prev p) front).setPrev front (h.prev p)).setNext back p).setPrev p back

theorem paste_next (h : Links ν) (front back p n : ν) : (h.paste front back p).next n =
    if n = back then p else if n = h.prev p then front else h.next n := by
  simp only [paste, setNext, setPrev, Function.update_apply]

theorem paste_prev (h : Links ν) (front back p n : ν) : (h.paste front back p).prev n =
    if n = p then back else if n = front then h.prev p else h.prev n := by
  simp only [paste, setNext, setPrev, Function.update_apply]

/-- `x` is put in front of `p` and `y` behind it. -/
def insertAround (p : ν) (x y : List ν) : List ν → List ν
  | [] => []
  | m :: c => if m = p then x ++ m :: (y ++ c) else m :: insertAround p x y c

theorem insertAround_split (hp : p ∉ c) (x y : List ν) :
    insertAround p x y (c ++ p :: d) = c ++ (x ++ p :: (y ++ d)) := by
  induction c with
  | nil => rw [List.nil_append, insertAround, if_pos rfl, List.nil_append]
  | cons m c ih =>
    rw [List.mem_cons, not_or] at hp
    rw [List.cons_append, insertAround, if_neg (Ne.symm hp.1), ih hp.2, List.cons_append]

theorem insertAround_of_notMem (hp : p ∉ c) (x y : List ν) : insertAround p x y c = c := by
  induction c with
  | nil => rfl
  | cons m c ih =>
    rw [List.mem_cons, not_or] at hp
    rw [insertAround, if_neg (Ne.symm hp.1), ih hp.2]

/-- What another node of the ring of `p` sees when there are new ones around `p`. -/
theorem IsRing.view_insertAround {h' : Links ν} {x y : List ν}
    (hring : h'.IsRing (p :: (y ++ (c ++ x)))) (hp : h.IsRing (p :: c)) (hd : h.IsRing (n :: d))
    (hn : n ∈ c) : h'.IsRing (n :: insertAround p x y d) := by
  obtain ⟨u, v, rfl⟩ := List.append_of_mem hn
  have hview : d = v ++ p :: u := hd.unique (IsRing.rotate (u := p :: u) hp)
  have hpv : p ∉ v := by
    have hnodup := hp.nodup
    simp only [List.nodup_cons, List.mem_append, List.mem_cons, not_or] at hnodup
    exact hnodup.1.2.2
  have hsplit : p :: (y ++ (u ++ n :: v ++ x)) = (p :: (y ++ u)) ++ n :: (v ++ x) := by simp
  rw [hsplit] at hring
  rw [hview, insertAround_split hpv]
  have hrotate := hring.rotate
  rwa [List.cons_append, List.append_assoc] at hrotate

theorem IsRing.paste_other (hd : h.IsRing d) (hfront : front ∈ seg.head?)
    (hback : back ∈ seg.getLast?) (hp : h.IsRing (p :: c)) (hpd : ∀ m ∈ d, m ∉ p :: c)
    (hsegd : ∀ m ∈ d, m ∉ seg) : (h.paste front back p).IsRing d := by
  have hfront' : front ∈ seg := List.mem_of_mem_head? hfront
  have hback' : back ∈ seg := List.mem_of_mem_getLast? hback
  refine hd.congr (fun a ha => ?_) fun b hb => ?_
  · rw [paste_next, if_neg (ne_of_mem_of_not_mem hback' (hsegd a ha)).symm,
      if_neg (ne_of_mem_of_not_mem hp.linked_prev.2 (hpd a ha)).symm]
  · rw [paste_prev, if_neg (ne_of_mem_of_not_mem List.mem_cons_self (hpd b hb)).symm,
      if_neg (ne_of_mem_of_not_mem hfront' (hsegd b hb)).symm]

/-- A node of another ring sees the same as before. -/
theorem IsRing.paste_view_other (hd : h.IsRing (n :: d)) (hseg : h.IsRing seg)
    (hfront : front ∈ seg.head?) (hback : back ∈ seg.getLast?) (hp : h.IsRing (p :: c))
    (hn : n ∉ seg) (hnp : n ∉ p :: c) (x y : List ν) :
    (h.paste front back p).IsRing (n :: insertAround p x y d) := by
  have hother := fun m hm => hd.disjoint hp hnp (m := m) hm
  have hpd : p ∉ d := fun hpd => hother p (List.mem_cons_of_mem n hpd) List.mem_cons_self
  rw [insertAround_of_notMem hpd]
  exact hd.paste_other hfront hback hp hother fun m hm => hd.disjoint hseg hn hm

section

variable (hseg : h.IsRing seg) (hfront : front ∈ seg.head?) (hback : back ∈ seg.getLast?)
  (hp : h.IsRing (p :: c))
  (hdisj : ∀ m ∈ seg, m ∉ p :: c)
include hseg hfront hback hp hdisj

theorem IsRing.paste : (h.paste front back p).IsRing ((p :: c) ++ seg) := by
  have hne : seg ≠ [] := List.ne_nil_of_mem (List.mem_of_mem_head? hfront)
  have hfront' : front ∉ p :: c := hdisj front (List.mem_of_mem_head? hfront)
  have hback' : back ∉ p :: c := hdisj back (List.mem_of_mem_getLast? hback)
  have hlast : (p :: c).getLast (List.cons_ne_nil p c) ∈ (p :: c).getLast? :=
    List.getLast?_eq_some_getLast _
  have hprev : h.prev p = (p :: c).getLast (List.cons_ne_nil p c) := (hp.closed _ hlast p rfl).2
  refine (isRing_append_iff (List.cons_ne_nil p c) hne).2 ⟨?_, ?_, fun a ha b hb => ?_,
    fun a ha b hb => ?_, ?_⟩
  · refine path_congr hp.path (fun a ha => ?_) fun b hb => ?_
    · have ha' := List.dropLast_subset _ ha
      rw [paste_next, if_neg (ne_of_mem_of_not_mem ha' hback'), if_neg]
      rw [hprev]
      exact ne_of_mem_of_not_mem ha (notMem_dropLast hp.nodup hlast)
    · have hb' := List.mem_of_mem_tail hb
      rw [paste_prev, if_neg (ne_of_mem_of_not_mem hb (notMem_tail hp.nodup rfl)),
        if_neg (ne_of_mem_of_not_mem hb' hfront')]
  · refine path_congr hseg.path (fun a ha => ?_) fun b hb => ?_
    · have ha' := hdisj a (List.dropLast_subset _ ha)
      rw [paste_next, if_neg (ne_of_mem_of_not_mem ha (notMem_dropLast hseg.nodup hback)), if_neg]
      rw [hprev]
      exact (ne_of_mem_of_not_mem (List.getLast_mem _) ha').symm
    · have hb' := hdisj b (List.mem_of_mem_tail hb)
      rw [paste_prev, if_neg (ne_of_mem_of_not_mem List.mem_cons_self hb').symm,
        if_neg (ne_of_mem_of_not_mem hb (notMem_tail hseg.nodup hfront))]
  · obtain rfl : a = h.prev p := hprev ▸ Option.mem_unique ha hlast
    obtain rfl : b = front := Option.mem_unique hb hfront
    have hmem : h.prev p ∈ p :: c := hp.linked_prev.2
    constructor
    · rw [paste_next, if_neg (ne_of_mem_of_not_mem hmem hback'), if_pos rfl]
    · rw [paste_prev, if_neg (ne_of_mem_of_not_mem List.mem_cons_self hfront').symm, if_pos rfl]
  · obtain rfl : a = back := Option.mem_unique ha hback
    obtain rfl : b = p := (Option.some.inj hb).symm
    exact ⟨by rw [paste_next, if_pos rfl], by rw [paste_prev, if_pos rfl]⟩
  · exact List.nodup_append.2 ⟨hp.nodup, hseg.nodup, fun a ha b hb heq => hdisj b hb (heq ▸ ha)⟩

/-- Another node than `p` sees the new ones in front of `p`, if it sees `p`. -/
theorem IsRing.paste_view (hd : h.IsRing (n :: d)) (hn : n ∉ seg) (hnp : n ≠ p) :
    (h.paste front back p).IsRing (n :: insertAround p seg [] d) := by
  by_cases hmem : n ∈ p :: c
  · have hring := hseg.paste hfront hback hp hdisj
    exact IsRing.view_insertAround (y := []) hring hp hd ((List.mem_cons.1 hmem).resolve_left hnp)
  · exact hd.paste_view_other hseg hfront hback hp hn hmem seg []

theorem Partition.paste (hpart : h.Partition) : (h.paste front back p).Partition := by
  intro n
  have hring := hseg.paste hfront hback hp hdisj
  by_cases hn : n ∈ seg
  · obtain ⟨u, v, -, hview⟩ := hring.from_mem (List.mem_append_right _ hn)
    exact ⟨v ++ u, hview⟩
  by_cases hnp : n = p
  · subst hnp
    exact ⟨c ++ seg, hring⟩
  · obtain ⟨d, hd⟩ := hpart n
    exact ⟨_, hseg.paste_view hfront hback hp hdisj hd hn hnp⟩

/-- The ring is put behind `p`, which is in front of the one behind `p`. -/
theorem IsRing.pasteAfter : (h.paste front back (h.next p)).IsRing (p :: (seg ++ c)) := by
  cases c with
  | nil =>
    rw [(hp.closed p rfl p rfl).1, List.append_nil]
    exact hseg.paste hfront hback hp hdisj
  | cons q c =>
    rw [((List.isChain_cons_cons.1 hp.path).1).1]
    have hq : h.IsRing (q :: (c ++ [p])) := IsRing.rotate (u := [p]) hp
    have hdisj' : ∀ m ∈ seg, m ∉ q :: (c ++ [p]) := by
      intro m hm
      have hnot := hdisj m hm
      simp only [List.mem_cons, List.mem_append] at hnot ⊢
      tauto
    have hring := hseg.paste hfront hback hq hdisj'
    rw [← List.cons_append, List.append_assoc] at hring
    exact hring.rotate

theorem IsRing.pasteAfter_view (hd : h.IsRing (n :: d)) (hn : n ∉ seg) (hnp : n ≠ p) :
    (h.paste front back (h.next p)).IsRing (n :: insertAround p [] seg d) := by
  by_cases hmem : n ∈ p :: c
  · have hring := hseg.pasteAfter hfront hback hp hdisj
    rw [← List.append_nil c] at hring
    exact IsRing.view_insertAround hring hp hd ((List.mem_cons.1 hmem).resolve_left hnp)
  · have hother := fun m hm => hd.disjoint hp hmem (m := m) hm
    have hpd : p ∉ d := fun hpd => hother p (List.mem_cons_of_mem n hpd) List.mem_cons_self
    rw [insertAround_of_notMem hpd]
    obtain ⟨u, v, hsplit, hq⟩ := hp.from_mem hp.linked_next.2
    refine hd.paste_other hfront hback hq (fun m hm => ?_) fun m hm => hd.disjoint hseg hn hm
    have hnot := hother m hm
    rw [hsplit] at hnot
    simp only [List.mem_cons, List.mem_append] at hnot ⊢
    tauto

end

end Paste

end Links

end LinkedRing
