import Mathlib

/-!
# Pull sources and push sinks of blocks

A *source* hands out lists of blocks on request, or fails; the empty list is its end-of-stream
signal. A *sink* takes lists of blocks, or fails. Both are state machines over an explicit state, so
that a wrapper around a source is again a source whose state contains the state of the wrapped one.

`Delivers s xs f` says what a source is worth to a reader that stops at the first end-of-stream
signal or failure: the elements `xs` in order, cut into lists with data in some way, and then the
ending `f`. `Yields Q s xs f` says the same to a reader that may also ask again after the ending (a
steady source keeps answering `f`) and that relies on every list to satisfy `Q`. Readers are
verified against these two, so a result about a reader holds for every way of cutting the elements.
-/

namespace BlockIO

/-- A list of blocks with data, some of which may be empty. -/
def HasData (l : List (List α)) : Prop := l.flatten ≠ []

instance [DecidableEq α] (l : List (List α)) : Decidable (HasData l) := by
  unfold HasData; infer_instance

/-- A list of blocks with data none of which is empty. -/
def Proper (l : List (List α)) : Prop := l ≠ [] ∧ ∀ b ∈ l, b ≠ []

instance [DecidableEq α] (l : List (List α)) : Decidable (Proper l) := by
  unfold Proper; infer_instance

theorem Proper.hasData {l : List (List α)} (h : Proper l) : HasData l := by
  obtain ⟨hne, hb⟩ := h
  cases l with
  | nil => exact absurd rfl hne
  | cons b l =>
    have hb' := hb b (List.mem_cons_self ..)
    simp [HasData, hb']

theorem HasData.ne_nil {l : List (List α)} (h : HasData l) : l ≠ [] := by
  rintro rfl
  exact h rfl

theorem proper_cons {b : List α} {l : List (List α)} (hb : b ≠ []) (h : ∀ c ∈ l, c ≠ []) :
    Proper (b :: l) :=
  ⟨List.cons_ne_nil _ _, by simpa [hb] using h⟩

/-- A pull source. `turns` bounds the number of lists with blocks that are still to come. It never
grows, and each such list uses some of it up; loops that read until the end of the stream recurse
on it. -/
class Source (σ : Type) (ε : outParam Type) (α : outParam Type) where
  recv : σ → Except ε (List (List α)) × σ
  turns : σ → Nat
  turns_le : ∀ s, turns (recv s).2 ≤ turns s
  turns_lt : ∀ {s l}, (recv s).1 = .ok l → l ≠ [] → turns (recv s).2 < turns s

/-- A source with a bound on the number of elements that are still to come. -/
class SizedSource (σ : Type) (ε : outParam Type) (α : outParam Type) extends Source σ ε α where
  size : σ → Nat
  size_le : ∀ s, size (recv s).2 ≤ size s
  size_recv : ∀ {s l}, (recv s).1 = .ok l → l.flatten.length + size (recv s).2 ≤ size s

/-- A push sink. -/
class Sink (τ : Type) (ε : outParam Type) (α : outParam Type) where
  send : τ → List (List α) → Except ε Unit × τ

open Source Sink

variable {σ τ ε α : Type}

/-! ### What a source delivers -/

/-- `s` hands out the elements `xs` and then ends: at end of stream (`none`) or with an
exception. -/
inductive Delivers [Source σ ε α] : σ → List α → Option ε → Prop
  | stop {s s'} : recv s = (.ok [], s') → Delivers s [] none
  | fail {s s' e} : recv s = (.error e, s') → Delivers s [] (some e)
  | more {s s' l xs f} : recv s = (.ok l, s') → HasData l → Delivers s' xs f →
    Delivers s (l.flatten ++ xs) f

/-- The answer to a request when all elements have been handed out. -/
def ended : Option ε → Except ε (List (List α))
  | none => .ok []
  | some e => .error e

/-- What a source delivers and how it ends is determined. -/
theorem Delivers.unique [Source σ ε α] {s : σ} {xs ys : List α} {f g : Option ε}
    (H : Delivers s xs f) (H' : Delivers s ys g) : xs = ys ∧ f = g := by
  induction H generalizing ys with
  | stop hr =>
    cases H' with
    | stop => exact ⟨rfl, rfl⟩
    | fail hr' => rw [hr] at hr'; cases hr'
    | more hr' hl => rw [hr] at hr'; cases hr'; exact absurd rfl hl
  | fail hr =>
    cases H' with
    | stop hr' => rw [hr] at hr'; cases hr'
    | fail hr' => rw [hr] at hr'; cases hr'; exact ⟨rfl, rfl⟩
    | more hr' => rw [hr] at hr'; cases hr'
  | more hr hl _ ih =>
    cases H' with
    | stop hr' => rw [hr] at hr'; cases hr'; exact absurd rfl hl
    | fail hr' => rw [hr] at hr'; cases hr'
    | more hr' _ H' =>
      rw [hr] at hr'
      cases hr'
      obtain ⟨rfl, rfl⟩ := ih H'
      exact ⟨rfl, rfl⟩

/-- A source delivers no more than its bound. -/
theorem Delivers.length_le [SizedSource σ ε α] {s : σ} {xs : List α} {f : Option ε}
    (H : Delivers s xs f) : xs.length ≤ SizedSource.size s := by
  induction H with
  | stop | fail => exact Nat.zero_le _
  | @more s s' l xs f hr _ _ ih =>
    have hsize := SizedSource.size_recv (congrArg Prod.fst hr)
    rw [hr] at hsize
    rw [List.length_append]
    exact Nat.le_trans (Nat.add_le_add_left ih _) hsize

/-- A source that passes every request on to another one. -/
theorem Delivers.map {σ' : Type} [Source σ ε α] [Source σ' ε α] {g : σ → σ'}
    (hg : ∀ s, recv (g s) = ((recv s).1, g (recv s).2)) {s : σ} {xs : List α} {f : Option ε}
    (H : Delivers s xs f) : Delivers (g s) xs f := by
  induction H with
  | stop hr => exact .stop ((hg _).trans (by rw [hr]))
  | fail hr => exact .fail ((hg _).trans (by rw [hr]))
  | more hr hl _ ih => exact .more ((hg _).trans (by rw [hr])) hl ih

/-! ### Steady sources -/

/-- One request of a source that is related to the elements it has yet to hand out: it hands out a
piece of them in a list that satisfies `Q`, or there are none left and it answers the ending `f`. -/
def Steady [Source σ ε α] (Q : List (List α) → Prop) (f : Option ε) (P : σ → List α → Prop) :
    Prop :=
  ∀ s xs, P s xs →
    (xs = [] ∧ ∃ s', recv s = (ended f, s') ∧ P s' []) ∨
      ∃ l s' ys, recv s = (.ok l, s') ∧ HasData l ∧ Q l ∧ xs = l.flatten ++ ys ∧ P s' ys

/-- `s` hands out the elements `xs` in lists that satisfy `Q` and then answers `f` to every
request. -/
def Yields [Source σ ε α] (Q : List (List α) → Prop) (s : σ) (xs : List α) (f : Option ε) : Prop :=
  ∃ P : σ → List α → Prop, Steady Q f P ∧ P s xs

namespace Yields

variable [Source σ ε α] {Q : List (List α) → Prop} {s : σ} {xs : List α} {f : Option ε}

theorem steady (Q : List (List α) → Prop) (f : Option ε) :
    Steady Q f fun (s : σ) (xs : List α) => Yields Q s xs f := by
  rintro s xs ⟨P, hP, h⟩
  rcases hP s xs h with ⟨hx, s', hr, h'⟩ | ⟨l, s', ys, hr, hl, hq, hx, h'⟩
  · exact .inl ⟨hx, s', hr, P, hP, h'⟩
  · exact .inr ⟨l, s', ys, hr, hl, hq, hx, P, hP, h'⟩

theorem recv_cons (H : Yields Q s xs f) (hx : xs ≠ []) :
    ∃ l s' ys, recv s = (.ok l, s') ∧ HasData l ∧ Q l ∧ xs = l.flatten ++ ys ∧
      Yields Q s' ys f := by
  rcases steady Q f s xs H with ⟨h0, -⟩ | h
  · exact absurd h0 hx
  · exact h

theorem recv_nil (H : Yields Q s [] f) : ∃ s', recv s = (ended f, s') ∧ Yields Q s' [] f := by
  rcases steady Q f s [] H with ⟨-, h⟩ | ⟨l, s', ys, -, hl, -, hx, -⟩
  · exact h
  · exact absurd (List.append_eq_nil_iff.mp hx.symm).1 hl

end Yields

/-- Every list that a source hands out is cut from the front of the elements it is related to; the
source may end at any time. -/
def Serves [Source σ ε α] (P : σ → List α → Prop) : Prop :=
  ∀ s xs l s', P s xs → recv s = (.ok l, s') → HasData l → ∃ ys, xs = l.flatten ++ ys ∧ P s' ys

theorem Steady.serves [Source σ ε α] {Q : List (List α) → Prop} {P : σ → List α → Prop}
    {f : Option ε} (hP : Steady Q f P) : Serves P := by
  intro s xs l s' h hr hl
  rcases hP s xs h with ⟨rfl, s₁, hr', -⟩ | ⟨l', s₁, ys, hr', -, -, hx, h'⟩
  · rw [hr] at hr'
    cases f with
    | none => cases hr'; exact absurd rfl hl
    | some e => cases hr'
  · rw [hr] at hr'
    cases hr'
    exact ⟨ys, hx, h'⟩

/-- A steady relation is followed along the elements, which get fewer with every piece. -/
theorem Steady.delivers [Source σ ε α] {Q : List (List α) → Prop} {P : σ → List α → Prop}
    {f : Option ε} (hP : Steady Q f P) {s : σ} {xs : List α} (h : P s xs) : Delivers s xs f := by
  induction hn : xs.length using Nat.strongRecOn generalizing s xs with
  | ind n ih =>
    rcases hP s xs h with ⟨rfl, s', hr, -⟩ | ⟨l, s', ys, hr, hl, -, rfl, h'⟩
    · cases f with
      | none => exact .stop hr
      | some e => exact .fail hr
    · have hpos := List.length_pos_iff.mpr hl
      rw [List.length_append] at hn
      exact .more hr hl (ih ys.length (by omega) h' rfl)

theorem Yields.delivers [Source σ ε α] {Q : List (List α) → Prop} {s : σ} {xs : List α}
    {f : Option ε} (H : Yields Q s xs f) : Delivers s xs f :=
  (Yields.steady Q f).delivers H

/-! ### The first requests to a source -/

/-- The elements that the first `n` answers hand out, and the source after them. An exception hands
out nothing. -/
def taken [Source σ ε α] (s : σ) : Nat → List α × σ
  | 0 => ([], s)
  | n + 1 =>
    match recv (taken s n).2 with
    | (.ok l, s') => ((taken s n).1 ++ l.flatten, s')
    | (.error _, s') => ((taken s n).1, s')

theorem taken_ok [Source σ ε α] {s s' : σ} {n : Nat} {l : List (List α)}
    (h : recv (taken s n).2 = (.ok l, s')) :
    taken s (n + 1) = ((taken s n).1 ++ l.flatten, s') := by
  rw [taken, h]

theorem taken_error [Source σ ε α] {s s' : σ} {n : Nat} {e : ε}
    (h : recv (taken s n).2 = (.error e, s')) : taken s (n + 1) = ((taken s n).1, s') := by
  rw [taken, h]

/-! ### Scripted sources -/

/-- The environment's source: the lists it will hand out, and how it ends after them. -/
structure Script (ε α : Type) where
  blocks : List (List (List α))
  ending : Option ε := none

namespace Script

def next : Script ε α → Except ε (List (List α)) × Script ε α
  | ⟨[], none⟩ => (.ok [], ⟨[], none⟩)
  | ⟨[], some e⟩ => (.error e, ⟨[], some e⟩)
  | ⟨l :: ls, f⟩ => (.ok l, ⟨ls, f⟩)

instance : SizedSource (Script ε α) ε α where
  recv := next
  turns s := s.blocks.length
  turns_le s := by
    obtain ⟨_ | ⟨l, ls⟩, _ | e⟩ := s <;> simp [next]
  turns_lt {s l} h hl := by
    obtain ⟨_ | ⟨l', ls⟩, _ | e⟩ := s <;> simp_all [next]
  size s := s.blocks.flatten.flatten.length
  size_le s := by
    obtain ⟨_ | ⟨l, ls⟩, _ | e⟩ := s <;> simp [next]
  size_recv {s l} h := by
    obtain ⟨_ | ⟨l', ls⟩, _ | e⟩ := s <;> simp_all [next]

/-- A script of proper lists yields the concatenation of their blocks. -/
theorem yields {ls : List (List (List α))} (h : ∀ l ∈ ls, Proper l) (f : Option ε) :
    Yields Proper (Script.mk ls f) ls.flatten.flatten f := by
  refine ⟨fun s xs => s.ending = f ∧ (∀ l ∈ s.blocks, Proper l) ∧ xs = s.blocks.flatten.flatten, ?_,
    rfl, h, rfl⟩
  rintro ⟨ls, f⟩ xs ⟨rfl, hls, rfl⟩
  cases ls with
  | nil => cases f <;> exact .inl ⟨rfl, _, rfl, rfl, hls, rfl⟩
  | cons l ls =>
    have hl := hls l (List.mem_cons_self ..)
    exact .inr ⟨l, ⟨ls, f⟩, _, by cases f <;> rfl, hl.hasData, hl, List.flatten_append,
      rfl, (List.forall_mem_cons.1 hls).2, rfl⟩

end Script

/-- A way to cut `xs` into the non-empty blocks and lists that a source hands out. -/
structure Cutting (xs : List α) where
  lists : List (List (List α))
  proper : ∀ l ∈ lists, Proper l
  flatten : lists.flatten.flatten = xs

namespace Cutting

variable {xs : List α}

/-- The source that hands out `xs` cut in this way. -/
def script (c : Cutting xs) (f : Option ε) : Script ε α := ⟨c.lists, f⟩

theorem yields (c : Cutting xs) (f : Option ε) : Yields Proper (c.script f) xs f := by
  have := Script.yields c.proper f
  rwa [c.flatten] at this

/-- Everything in one block. -/
def whole (h : xs ≠ []) : Cutting xs where
  lists := [[xs]]
  proper := by
    intro l hl
    cases List.mem_singleton.1 hl
    exact proper_cons h (by simp)
  flatten := by simp

end Cutting

/-! ### Everything that a source answers -/

/-- What a source hands out, element by element; `stop` is an answer without data, which is an
end-of-stream signal or a failure. -/
inductive Cell (ε α : Type) where
  | elem (a : α)
  | stop (f : Option ε)
  deriving DecidableEq, Repr

def elems (xs : List α) : List (Cell ε α) := xs.map .elem

@[simp] theorem elems_nil : elems ([] : List α) = ([] : List (Cell ε α)) := rfl

@[simp] theorem elems_append (xs ys : List α) :
    elems (xs ++ ys) = (elems xs ++ elems ys : List (Cell ε α)) := List.map_append

/-- One answer. -/
def cells : Except ε (List (List α)) → List (Cell ε α)
  | .ok [] => [.stop none]
  | .ok l => elems l.flatten
  | .error e => [.stop (some e)]

/-- `ws` is what `s` answers to requests, one after the other, and `s'` is the state after them. -/
inductive Feeds [Source σ ε α] : σ → List (Cell ε α) → σ → Prop
  | refl (s : σ) : Feeds s [] s
  | more {s s' : σ} {ws : List (Cell ε α)} :
    Feeds (recv s).2 ws s' → Feeds s (cells (recv s).1 ++ ws) s'

namespace Feeds

variable [Source σ ε α] {s s' s'' : σ} {ws vs : List (Cell ε α)}

theorem single (s : σ) : Feeds s (cells (recv s).1) (recv s).2 := by
  have := Feeds.more (Feeds.refl (recv s).2)
  rwa [List.append_nil] at this

theorem trans (H : Feeds s ws s') (H' : Feeds s' vs s'') : Feeds s (ws ++ vs) s'' := by
  induction H with
  | refl s => exact H'
  | more _ ih =>
    rw [List.append_assoc]
    exact .more (ih H')

end Feeds

/-- No list that the source will ever hand out has an empty block. -/
def Tidy [Source σ ε α] (s : σ) : Prop :=
  ∀ n l, (recv ((fun s => (recv s).2)^[n] s)).1 = .ok l → ∀ b ∈ l, b ≠ []

namespace Tidy

variable [Source σ ε α] {s : σ}

theorem recv_ok (H : Tidy s) {l : List (List α)} (h : (recv s).1 = .ok l) : ∀ b ∈ l, b ≠ [] :=
  H 0 l h

theorem recv_snd (H : Tidy s) : Tidy (recv s).2 := fun n => H (n + 1)

end Tidy

theorem Script.tidy {ls : List (List (List α))} (h : ∀ l ∈ ls, ∀ b ∈ l, b ≠ []) (f : Option ε) :
    Tidy (Script.mk ls f) := by
  intro n
  induction n generalizing ls with
  | zero =>
    intro l hl
    cases ls with
    | nil => cases f <;> cases hl; simp
    | cons l' ls =>
      cases hl
      exact h l (List.mem_cons_self ..)
  | succ n ih =>
    cases ls with
    | nil => cases f <;> exact ih h
    | cons l' ls => exact ih (List.forall_mem_cons.1 h).2

/-! ### Sends in a row -/

/-- One send after the other, up to the first that throws. -/
def Sink.sendAll [Sink τ ε α] (t : τ) : List (List (List α)) → Except ε Unit × τ
  | [] => (.ok (), t)
  | l :: ls =>
    match send t l with
    | (.ok (), t) => sendAll t ls
    | (.error e, t) => (.error e, t)

theorem sendAll_concat [Sink τ ε α] {t t' : τ} {ls : List (List (List α))}
    (h : Sink.sendAll t ls = (.ok (), t')) (l : List (List α)) :
    Sink.sendAll t (ls ++ [l]) = send t' l := by
  induction ls generalizing t with
  | nil =>
    cases h
    simp only [List.nil_append, Sink.sendAll]
    split <;> simp_all
  | cons l' ls ih =>
    simp only [List.cons_append, Sink.sendAll] at h ⊢
    split at h
    · exact ih h
    · cases h

/-! ### Scripted sinks -/

/-- The environment's sink: what it has accepted so far, and the fate of the sends to come (`none`,
also after the last entry, accepts the list; an exception is thrown with nothing of the list
accepted). -/
structure Wire (ε α : Type) where
  accepted : List α := []
  faults : List (Option ε) := []

namespace Wire

def push (w : Wire ε α) (l : List (List α)) : Except ε Unit × Wire ε α :=
  match w.faults with
  | some e :: fs => (.error e, { w with faults := fs })
  | fs => (.ok (), { accepted := w.accepted ++ l.flatten, faults := fs.tail })

instance : Sink (Wire ε α) ε α where
  send := push

theorem send_eq (w : Wire ε α) (l : List (List α)) : send w l = push w l := rfl

/-- A wire without faults to come accepts everything. -/
theorem send_reliable (xs : List α) (l : List (List α)) :
    send (Wire.mk xs [] : Wire ε α) l = (.ok (), ⟨xs ++ l.flatten, []⟩) := rfl

/-- One send accepts the whole list or throws and accepts nothing. -/
theorem send_cases (w : Wire ε α) (l : List (List α)) :
    ((send w l).1 = .ok () ∧ (send w l).2.accepted = w.accepted ++ l.flatten) ∨
      (∃ e, (send w l).1 = .error e ∧ (send w l).2.accepted = w.accepted) := by
  simp only [send_eq, push]
  split
  · exact .inr ⟨_, rfl, rfl⟩
  · exact .inl ⟨rfl, rfl⟩

end Wire

end BlockIO
