import Mathlib

/-!
# Trees of linked nodes

Nodes that know their parent and their two children. A tree in memory is described by a value:
`Fits` says that the nodes of a subtree have the links and the data of the value, and `Hangs` says
the same of what is around a place, which is the list of the ancestors, the nearest one first. `At`
is both, with every node in one place only.

A write to one node is framed by `fits_modify` and `hangs_modify`; besides there are the two writes
that go across a place, `fits_reparent` and `hangs_rechild`.
-/

namespace LinkedTree

inductive Side where
  | left
  | right
  deriving DecidableEq, Repr

def Side.other : Side → Side
  | left => right
  | right => left

@[simp] theorem Side.other_other (d : Side) : d.other.other = d := by
  cases d <;> rfl

theorem Side.eq_or_eq_other (d d' : Side) : d' = d ∨ d' = d.other := by
  cases d <;> cases d' <;> simp [Side.other]

/-- A node in memory: its links and what else it holds. -/
structure Cell (α I : Type*) where
  info : I
  parent : Option α
  left : Option α
  right : Option α
  deriving DecidableEq, Repr

namespace Cell

variable {α I : Type*} (d : Side) (p : Option α) (c : Cell α I)

def child : Side → Option α
  | .left => c.left
  | .right => c.right

def setChild : Cell α I :=
  match d with
  | .left => { c with left := p }
  | .right => { c with right := p }

def setParent : Cell α I := { c with parent := p }

def setInfo (i : I) (c : Cell α I) : Cell α I := { c with info := i }

/-- The links and what `proj` sees of the data are the same. -/
structure Same {P : Type*} (proj : I → P) (c c' : Cell α I) : Prop where
  info : proj c.info = proj c'.info
  parent : c.parent = c'.parent
  left : c.left = c'.left
  right : c.right = c'.right

theorem Same.of_eq {P : Type*} {proj : I → P} {c c' : Cell α I} (h : c = c') : c.Same proj c' := by
  subst h
  exact ⟨rfl, rfl, rfl, rfl⟩

@[simp] theorem child_setChild : (setChild d p c).child d = p := by
  cases d <;> rfl

@[simp] theorem setChild_child : setChild d (c.child d) c = c := by
  cases d <;> rfl

@[simp] theorem child_other_setChild : (setChild d p c).child d.other = c.child d.other := by
  cases d <;> rfl

@[simp] theorem child_setChild_other : (setChild d.other p c).child d = c.child d := by
  cases d <;> rfl

@[simp] theorem parent_setChild : (setChild d p c).parent = c.parent := by
  cases d <;> rfl

@[simp] theorem info_setChild : (setChild d p c).info = c.info := by
  cases d <;> rfl

@[simp] theorem child_setParent : (setParent p c).child d = c.child d := by
  cases d <;> rfl

@[simp] theorem parent_setParent : (setParent p c).parent = p := rfl

@[simp] theorem info_setParent : (setParent p c).info = c.info := rfl

@[simp] theorem child_setInfo (i : I) : (setInfo i c).child d = c.child d := by
  cases d <;> rfl

@[simp] theorem parent_setInfo (i : I) : (setInfo i c).parent = c.parent := rfl

@[simp] theorem info_setInfo (i : I) : (setInfo i c).info = i := rfl

end Cell

/-! ### Values -/

inductive Tree (α P : Type*) where
  | nil
  | node (info : P) (left : Tree α P) (val : α) (right : Tree α P)
  deriving DecidableEq, Repr

namespace Tree

variable {α P : Type*}

/-- The pointer to the root. -/
def ptr : Tree α P → Option α
  | nil => none
  | node _ _ v _ => some v

/-- The elements in their order. -/
def toList : Tree α P → List α
  | nil => []
  | node _ l v r => l.toList ++ v :: r.toList

/-- A node by what hangs on the side `d` and on the other side. -/
def sided (d : Side) (info : P) (near : Tree α P) (v : α) (far : Tree α P) : Tree α P :=
  match d with
  | .left => node info near v far
  | .right => node info far v near

/-- What a node holds, the near side, the element and the far side. -/
def split (d : Side) : Tree α P → Option (P × Tree α P × α × Tree α P)
  | nil => none
  | node i l v r =>
    match d with
    | .left => some (i, l, v, r)
    | .right => some (i, r, v, l)

/-- The root goes down to the side `d`, and its child on the other side takes its place. -/
def rotate : Side → Tree α P → Tree α P
  | .left, node i a x (node j b y c) => node j (node i a x b) y c
  | .right, node i (node j a y b) x c => node j a y (node i b x c)
  | _, t => t

def setInfo (i : P) : Tree α P → Tree α P
  | nil => nil
  | node _ l v r => node i l v r

variable {d : Side} {i j : P} {a a' b b' c l r t : Tree α P} {v w : α}

@[simp] theorem toList_nil : (nil : Tree α P).toList = [] := rfl

@[simp] theorem toList_node : (node i l v r).toList = l.toList ++ v :: r.toList := rfl

@[simp] theorem toList_eq_nil : t.toList = [] ↔ t = nil := by
  cases t <;> simp

@[simp] theorem ptr_sided : (sided d i a v b).ptr = some v := by
  cases d <;> rfl

theorem sided_other (d : Side) : sided d.other i a v b = sided d i b v a := by
  cases d <;> rfl

@[simp] theorem split_sided : (sided d i a v b).split d = some (i, a, v, b) := by
  cases d <;> rfl

theorem eq_of_split (h : t.split d = some (i, a, v, b)) : t = sided d i a v b := by
  cases t with
  | nil => cases h
  | node j l w r => cases d <;> cases h <;> rfl

theorem rotate_sided (d : Side) :
    (sided d i a v (sided d j b w c)).rotate d = sided d j (sided d i a v b) w c := by
  cases d <;> rfl

theorem rotate_other_sided (d : Side) :
    (sided d j (sided d i a v b) w c).rotate d.other = sided d i a v (sided d j b w c) := by
  cases d <;> rfl

@[simp] theorem setInfo_sided : (sided d i a v b).setInfo j = sided d j a v b := by
  cases d <;> rfl

@[simp] theorem toList_setInfo (i : P) (t : Tree α P) : (t.setInfo i).toList = t.toList := by
  cases t <;> rfl

@[simp] theorem toList_rotate (d : Side) (t : Tree α P) : (t.rotate d).toList = t.toList := by
  unfold rotate
  split <;> simp [toList]

theorem toList_sided (d : Side) (ha : a'.toList = a.toList) (hb : b'.toList = b.toList) :
    (sided d i a' v b').toList = (sided d j a v b).toList := by
  cases d <;> simp [sided, ha, hb]

theorem perm_sided : (sided d i a v b).toList.Perm (v :: (a.toList ++ b.toList)) := by
  cases d with
  | left => exact List.perm_middle
  | right => exact List.perm_middle.trans (.cons v List.perm_append_comm)

@[simp] theorem mem_toList_sided :
    w ∈ (sided d i a v b).toList ↔ w = v ∨ w ∈ a.toList ∨ w ∈ b.toList := by
  rw [perm_sided.mem_iff, List.mem_cons, List.mem_append]

theorem length_toList_sided :
    (sided d i a v b).toList.length = a.toList.length + b.toList.length + 1 := by
  rw [perm_sided.length_eq, List.length_cons, List.length_append]

theorem nodup_sided : (sided d i a v b).toList.Nodup ↔
    v ∉ a.toList ∧ v ∉ b.toList ∧ a.toList.Nodup ∧ b.toList.Nodup ∧ a.toList.Disjoint b.toList := by
  rw [perm_sided.nodup_iff, List.nodup_cons, List.mem_append, not_or, List.nodup_append', and_assoc]

theorem nodup_node : (node i l v r).toList.Nodup ↔
    v ∉ l.toList ∧ v ∉ r.toList ∧ l.toList.Nodup ∧ r.toList.Nodup ∧ l.toList.Disjoint r.toList :=
  nodup_sided (d := .left)

theorem exists_sided (d : Side) (h : t.ptr = some v) : ∃ i a b, t = sided d i a v b := by
  cases t with
  | nil => cases h
  | node i l w r =>
    cases h
    cases d with
    | left => exact ⟨i, l, r, rfl⟩
    | right => exact ⟨i, r, l, rfl⟩

theorem ptr_mem (h : t.ptr = some v) : v ∈ t.toList := by
  obtain ⟨i, a, b, rfl⟩ := exists_sided .left h
  simp

theorem ptr_eq_none : t.ptr = none ↔ t = nil := by
  cases t <;> simp [ptr]

theorem ptr_ne (h : v ∉ t.toList) : t.ptr ≠ some v := mt ptr_mem h

theorem exists_ptr (h : v ∈ t.toList) : ∃ w, t.ptr = some w := by
  cases t with
  | nil => cases h
  | node i l w r => exact ⟨w, rfl⟩

end Tree

/-- An ancestor, without the subtree that hangs on `side`. -/
structure Frame (α P : Type*) where
  side : Side
  info : P
  val : α
  sibling : Tree α P

def Frame.plug {α P : Type*} (f : Frame α P) (t : Tree α P) : Tree α P :=
  .sided f.side f.info t f.val f.sibling

/-- The ancestors of a place, the nearest one first. -/
abbrev Path (α P : Type*) := List (Frame α P)

namespace Path

variable {α P : Type*}

/-- The tree with `t` in the place. -/
def plug : Path α P → Tree α P → Tree α P
  | [], t => t
  | f :: path, t => plug path (f.plug t)

/-- The pointer to the parent of the place; `top` is what the root has as its parent. -/
def ptr (top : Option α) : Path α P → Option α
  | [] => top
  | f :: _ => some f.val

def elems : Path α P → List α
  | [] => []
  | f :: path => f.val :: (f.sibling.toList ++ elems path)

/-- The elements in front of the place. -/
def before : Path α P → List α
  | [] => []
  | f :: path =>
    match f.side with
    | .left => before path
    | .right => before path ++ f.sibling.toList ++ [f.val]

/-- The elements behind the place. -/
def after : Path α P → List α
  | [] => []
  | f :: path =>
    match f.side with
    | .left => f.val :: f.sibling.toList ++ after path
    | .right => after path

variable {f : Frame α P} {path : Path α P} {t : Tree α P} {v : α}

@[simp] theorem mem_elems_cons :
    v ∈ elems (f :: path) ↔ v = f.val ∨ v ∈ f.sibling.toList ∨ v ∈ path.elems := by
  simp [elems]

theorem elems_plug (f : Frame α P) (path : Path α P) (t : Tree α P) :
    (path.elems ++ (f.plug t).toList).Perm (elems (f :: path) ++ t.toList) := by
  have hplug : (path.elems ++ (f.plug t).toList).Perm _ := Tree.perm_sided.append_left path.elems
  refine hplug.trans (List.perm_middle.trans (.cons f.val ?_))
  rw [← List.append_assoc]
  refine List.perm_append_comm.trans ?_
  rw [← List.append_assoc]
  rfl

theorem mem_toList_plug : v ∈ (path.plug t).toList ↔ v ∈ path.elems ∨ v ∈ t.toList := by
  induction path generalizing t with
  | nil => simp [plug, elems]
  | cons f path ih =>
    rw [plug, ih, Frame.plug, Tree.mem_toList_sided, mem_elems_cons]
    tauto

theorem toList_plug (path : Path α P) (t : Tree α P) :
    (path.plug t).toList = path.before ++ t.toList ++ path.after := by
  induction path generalizing t with
  | nil => simp [plug, before, after]
  | cons f path ih =>
    obtain ⟨side, i, v, s⟩ := f
    rw [plug, ih]
    cases side <;> simp [Frame.plug, Tree.sided, before, after]

theorem plug_append (path path' : Path α P) (t : Tree α P) :
    plug (path ++ path') t = path'.plug (path.plug t) := by
  induction path generalizing t with
  | nil => rfl
  | cons f path ih => exact ih (f.plug t)

theorem length_le_plug (path : Path α P) (t : Tree α P) :
    path.length + t.toList.length ≤ (path.plug t).toList.length := by
  induction path generalizing t with
  | nil => exact (Nat.zero_add _).le
  | cons f path ih =>
    have hle := ih (f.plug t)
    rw [Frame.plug, Tree.length_toList_sided] at hle
    rw [List.length_cons]
    exact le_trans (by omega) hle

end Path

/-! ### Memory -/

abbrev Memory (α I : Type*) := α → Cell α I

namespace Memory

variable {α I : Type*} [DecidableEq α]

def modify (m : Memory α I) (a : α) (f : Cell α I → Cell α I) : Memory α I :=
  Function.update m a (f (m a))

/-- A write through a pointer that may be null. -/
def modify? (m : Memory α I) (p : Option α) (f : Cell α I → Cell α I) : Memory α I :=
  match p with
  | none => m
  | some a => m.modify a f

variable {m : Memory α I} {a b : α} {p q : Option α} {f : Cell α I → Cell α I}

@[simp] theorem modify_self : m.modify a f a = f (m a) := Function.update_self ..

theorem modify_of_ne (h : b ≠ a) : m.modify a f b = m b := Function.update_of_ne h ..

theorem modify?_of_ne (h : p ≠ some b) : m.modify? p f b = m b := by
  cases p with
  | none => rfl
  | some a => exact modify_of_ne fun heq => h (congrArg some heq.symm)

theorem modify_apply : m.modify a f b = if b = a then f (m b) else m b := by
  split
  · next h => rw [h, modify_self]
  · next h => exact modify_of_ne h

theorem modify?_apply : m.modify? p f b = if p = some b then f (m b) else m b := by
  split
  · next h =>
    rw [h]
    exact modify_self
  · next h => exact modify?_of_ne h

theorem modify_eq_self (h : f (m a) = m a) : m.modify a f = m := by
  rw [modify, h, Function.update_eq_self]

/-- What a write does not change in the node it goes to, it changes nowhere. -/
theorem modify_congr {β : Type*} (g : Cell α I → β) (h : ∀ c, g (f c) = g c) :
    g (m.modify a f b) = g (m b) := by
  by_cases heq : b = a
  · rw [heq, modify_self, h]
  · rw [modify_of_ne heq]

theorem modify?_congr {β : Type*} (g : Cell α I → β) (h : ∀ c, g (f c) = g c) :
    g (m.modify? p f b) = g (m b) := by
  cases p with
  | none => rfl
  | some a => exact modify_congr g h

@[simp] theorem info_modify_setParent : (m.modify a (.setParent q) b).info = (m b).info :=
  modify_congr Cell.info (Cell.info_setParent q)

@[simp] theorem info_modify_setChild (d : Side) :
    (m.modify a (.setChild d q) b).info = (m b).info :=
  modify_congr Cell.info (Cell.info_setChild d q)

@[simp] theorem info_modify?_setParent : (m.modify? p (.setParent q) b).info = (m b).info :=
  modify?_congr Cell.info (Cell.info_setParent q)

end Memory

/-- The last node on the side `d` from `a` on; there is none if it takes more than `fuel` nodes. -/
def descend {α I : Type*} (d : Side) (m : Memory α I) : (fuel : Nat) → α → Option α
  | 0, _ => none
  | fuel + 1, a =>
    match (m a).child d with
    | none => some a
    | some b => descend d m fuel b

section Fits

variable {α I P : Type*}

/-- The nodes of a subtree below `parent`; `proj` is what the value says of the data of a node. -/
def Fits (proj : I → P) (m : Memory α I) (parent : Option α) : Tree α P → Prop
  | .nil => True
  | .node i l v r =>
    proj (m v).info = i ∧ (m v).parent = parent ∧ (m v).left = l.ptr ∧ (m v).right = r.ptr ∧
    Fits proj m (some v) l ∧ Fits proj m (some v) r

/-- What is around a place where the pointer `p` stands; `root` is the pointer to the whole tree. -/
def Hangs (proj : I → P) (m : Memory α I) (top root : Option α) : Path α P → Option α → Prop
  | [], p => root = p
  | f :: path, p =>
    proj (m f.val).info = f.info ∧ (m f.val).parent = Path.ptr top path ∧
      (m f.val).child f.side = p ∧
    (m f.val).child f.side.other = f.sibling.ptr ∧ Fits proj m (some f.val) f.sibling ∧
    Hangs proj m top root path (some f.val)

structure At (proj : I → P) (m : Memory α I) (top root : Option α) (path : Path α P)
    (t : Tree α P) : Prop where
  hangs : Hangs proj m top root path t.ptr
  fits : Fits proj m (path.ptr top) t
  nodup : (path.elems ++ t.toList).Nodup

variable {proj : I → P} {m m' : Memory α I} {parent top root p q : Option α} {t : Tree α P}
  {path : Path α P}

theorem At.disjoint (h : At proj m top root path t) :
    path.elems.Nodup ∧ t.toList.Nodup ∧ path.elems.Disjoint t.toList :=
  List.nodup_append'.1 h.nodup

theorem fits_sided {d : Side} {i : P} {a : Tree α P} {v : α} {b : Tree α P} :
    Fits proj m parent (.sided d i a v b) ↔ proj (m v).info = i ∧ (m v).parent = parent ∧
      (m v).child d = a.ptr ∧
      (m v).child d.other = b.ptr ∧ Fits proj m (some v) a ∧ Fits proj m (some v) b := by
  cases d with
  | left => exact Iff.rfl
  | right =>
    simp only [Tree.sided, Fits, Cell.child, Side.other]
    tauto

/-- Only links and what `proj` sees of the data count. -/
theorem fits_congr (h : ∀ v ∈ t.toList, (m' v).Same proj (m v)) :
    Fits proj m' parent t ↔ Fits proj m parent t := by
  induction t generalizing parent with
  | nil => exact Iff.rfl
  | node i l v r ihl ihr =>
    obtain ⟨hinfo, hparent, hleft, hright⟩ := h v (List.mem_append_right _ List.mem_cons_self)
    rw [Fits, Fits, hinfo, hparent, hleft, hright, ihl fun w hw => h w (List.mem_append_left _ hw),
      ihr fun w hw => h w (List.mem_append_right _ (List.mem_cons_of_mem _ hw))]

theorem hangs_congr (h : ∀ v ∈ path.elems, (m' v).Same proj (m v)) :
    Hangs proj m' top root path p ↔ Hangs proj m top root path p := by
  induction path generalizing p with
  | nil => exact Iff.rfl
  | cons f path ih =>
    obtain ⟨hinfo, hparent, hleft, hright⟩ := h f.val (by simp)
    have hchild : ∀ d, (m' f.val).child d = (m f.val).child d := fun d => by cases d <;> assumption
    rw [Hangs, Hangs, hinfo, hparent, hchild, hchild, fits_congr fun v hv => h v (by simp [hv]),
      ih fun v hv => h v (by simp [hv])]

/-- The root is one of the ancestors of a place that has any. -/
theorem Hangs.exists_root {f : Frame α P} (h : Hangs proj m top root (f :: path) p) :
    ∃ v ∈ Path.elems (f :: path), root = some v := by
  induction path generalizing f p with
  | nil => exact ⟨f.val, by simp, h.2.2.2.2.2⟩
  | cons g path ih =>
    obtain ⟨v, hv, hroot⟩ := ih h.2.2.2.2.2
    exact ⟨v, Path.mem_elems_cons.2 (.inr (.inr hv)), hroot⟩

/-- A subtree that hangs in a place is one that has its parent around it. -/
theorem at_cons {f : Frame α P} :
    At proj m top root (f :: path) t ↔ At proj m top root path (f.plug t) := by
  have hperm := Path.elems_plug f path t
  constructor
  · rintro ⟨⟨hinfo, hparent, hchild, hother, hsib, hhangs⟩, hfits, hnodup⟩
    refine ⟨?_, fits_sided.2 ⟨hinfo, hparent, hchild, hother, hfits, hsib⟩,
      hperm.nodup_iff.2 hnodup⟩
    rwa [Frame.plug, Tree.ptr_sided]
  · rintro ⟨hhangs, hfits, hnodup⟩
    obtain ⟨hinfo, hparent, hchild, hother, hfits, hsib⟩ := fits_sided.1 hfits
    rw [Frame.plug, Tree.ptr_sided] at hhangs
    exact ⟨⟨hinfo, hparent, hchild, hother, hsib, hhangs⟩, hfits, hperm.nodup_iff.1 hnodup⟩

/-- A subtree by itself. -/
theorem at_root (hfits : Fits proj m parent t) (hnodup : t.toList.Nodup) :
    At proj m parent t.ptr [] t :=
  ⟨rfl, hfits, hnodup⟩

theorem at_plug : At proj m top root path t ↔ At proj m top root [] (path.plug t) := by
  induction path generalizing t with
  | nil => exact Iff.rfl
  | cons f path ih => rw [at_cons, ih, Path.plug]

theorem at_append {path' : Path α P} :
    At proj m top root (path ++ path') t ↔ At proj m top root path' (path.plug t) := by
  refine at_plug.trans ?_
  rw [Path.plug_append]
  exact at_plug.symm

end Fits

section Writes

variable {α I P : Type*} [DecidableEq α] {proj : I → P} {m : Memory α I}
  {parent top root p q : Option α}
  {t : Tree α P} {path : Path α P} {v : α} {f : Cell α I → Cell α I}

theorem fits_modify (h : v ∉ t.toList) : Fits proj (m.modify v f) parent t ↔ Fits proj m parent t :=
  fits_congr fun _ hw => .of_eq (Memory.modify_of_ne (ne_of_mem_of_not_mem hw h))

theorem hangs_modify (h : v ∉ path.elems) :
    Hangs proj (m.modify v f) top root path p ↔ Hangs proj m top root path p :=
  hangs_congr fun _ hw => .of_eq (Memory.modify_of_ne (ne_of_mem_of_not_mem hw h))

theorem hangs_modify? (h : ∀ v ∈ q, v ∉ path.elems) :
    Hangs proj (m.modify? q f) top root path p ↔ Hangs proj m top root path p := by
  cases q with
  | none => exact Iff.rfl
  | some v => exact hangs_modify (h v rfl)

/-- The root of a subtree gets another parent. -/
theorem fits_reparent (hfits : Fits proj m parent t) (hnodup : t.toList.Nodup) :
    Fits proj (m.modify? t.ptr (Cell.setParent q)) q t := by
  cases t with
  | nil => trivial
  | node i l v r =>
    obtain ⟨hinfo, -, hleft, hright, hl, hr⟩ := hfits
    obtain ⟨hvl, hvr, -⟩ := Tree.nodup_node.1 hnodup
    show Fits proj (m.modify v (Cell.setParent q)) q (.node i l v r)
    rw [Fits, Memory.modify_self, fits_modify hvl, fits_modify hvr]
    exact ⟨hinfo, rfl, hleft, hright, hl, hr⟩

/-- The root of a subtree gets other data. -/
theorem at_setInfo {i j : P} {l r : Tree α P} {g : I → I}
    (h : At proj m top root path (.node i l v r)) (hj : proj (g (m v).info) = j) :
    At proj (m.modify v fun c => c.setInfo (g c.info)) top root path (.node j l v r) := by
  obtain ⟨-, hnodup, hdisj⟩ := h.disjoint
  obtain ⟨hvl, hvr, -⟩ := Tree.nodup_node.1 hnodup
  obtain ⟨-, hparent, hleft, hright, hl, hr⟩ := h.fits
  refine ⟨(hangs_modify fun hmem => hdisj hmem (Tree.ptr_mem rfl)).2 h.hangs, ?_, h.nodup⟩
  rw [Fits, Memory.modify_self, fits_modify hvl, fits_modify hvr]
  exact ⟨hj, hparent, hleft, hright, hl, hr⟩

/-- The parent of a place gets another child there. -/
theorem hangs_rechild {g : Frame α P} (hhangs : Hangs proj m top root (g :: path) p)
    (hnodup : (Path.elems (g :: path)).Nodup) :
    Hangs proj (m.modify g.val (Cell.setChild g.side q)) top root (g :: path) q := by
  obtain ⟨hinfo, hparent, -, hother, hsib, hhangs⟩ := hhangs
  obtain ⟨hval, -⟩ := List.nodup_cons.1 hnodup
  rw [List.mem_append, not_or] at hval
  rw [Hangs, Memory.modify_self, fits_modify hval.1, hangs_modify hval.2, Cell.info_setChild,
    Cell.parent_setChild, Cell.child_setChild, Cell.child_other_setChild]
  exact ⟨hinfo, hparent, rfl, hother, hsib, hhangs⟩

/-- The nodes and the pointer to the root, with another pointer in a place. -/
def hang (m : Memory α I) (root : Option α) (path : Path α P) (p : Option α) :
    Memory α I × Option α :=
  match path with
  | [] => (m, p)
  | g :: _ => (m.modify g.val (Cell.setChild g.side p), root)

theorem hangs_hang (hhangs : Hangs proj m top root path p) (hnodup : path.elems.Nodup)
    (q : Option α) : Hangs proj (hang m root path q).1 top (hang m root path q).2 path q := by
  cases path with
  | nil => rfl
  | cons g path => exact hangs_rechild hhangs hnodup

theorem hang_of_notMem (root q : Option α) (h : v ∉ path.elems) :
    (hang m root path q).1 v = m v := by
  cases path with
  | nil => rfl
  | cons g path => exact Memory.modify_of_ne fun heq => h (by simp [heq])

/-- A subtree that differs from one in memory by the parent of its root. -/
theorem fits_moved {m' : Memory α I} (hfits : Fits proj m parent t) (hnodup : t.toList.Nodup)
    (h : ∀ v ∈ t.toList, m' v = m.modify? t.ptr (Cell.setParent q) v) : Fits proj m' q t :=
  (fits_congr fun v hv => .of_eq (h v hv)).2 (fits_reparent hfits hnodup)

/-- A subtree is hung in a place that has a parent. -/
theorem at_graft {g : Frame α P} (hhangs : Hangs proj m top root (g :: path) p)
    (hfits : Fits proj m q t) (hnodup : (Path.elems (g :: path) ++ t.toList).Nodup) :
    At proj ((m.modify? t.ptr (Cell.setParent (some g.val))).modify g.val
      (Cell.setChild g.side t.ptr)) top root (g :: path) t := by
  obtain ⟨hpath, htree, hdisj⟩ := List.nodup_append'.1 hnodup
  have hval : g.val ∉ t.toList := fun hmem => hdisj (by simp) hmem
  refine ⟨hangs_rechild ((hangs_modify? fun v hv hmem => hdisj hmem (Tree.ptr_mem hv)).2 hhangs)
    hpath, ?_, hnodup⟩
  rw [fits_modify hval]
  exact fits_reparent hfits htree

end Writes

end LinkedTree
