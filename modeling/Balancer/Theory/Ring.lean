import Mathlib

/-!
# Ring buffers

A ring of `N` slots holds `total` elements from the slot `cur` on. `view` is the list of them, the
oldest first; the operations of a ring are described by what they do to this list. What a ring can
hold are the last `N` elements of all that were written.
-/

namespace Ring

variable {α : Type*} {N cur total : ℕ} {a : ℕ → α}

/-- What a ring holds. -/
def view (N cur total : ℕ) (a : ℕ → α) : List α := (List.range total).map fun k => a ((cur + k) % N)

@[simp] theorem length_view : (view N cur total a).length = total := by
  rw [view, List.length_map, List.length_range]

@[simp] theorem view_zero : view N cur 0 a = [] := rfl

/-- The oldest element is in the slot `cur`. -/
theorem view_succ (h : cur < N) :
    view N cur (total + 1) a = a cur :: view N ((cur + 1) % N) total a := by
  rw [view, List.range_succ_eq_map, List.map_cons, List.map_map, Nat.add_zero, Nat.mod_eq_of_lt h,
    view]
  refine congrArg (a cur :: ·) (List.map_congr_left fun k _ => ?_)
  show a ((cur + (k + 1)) % N) = a (((cur + 1) % N + k) % N)
  rw [Nat.mod_add_mod, Nat.add_assoc, Nat.add_comm 1 k]

theorem view_congr {b : ℕ → α} (h : ∀ k < total, b ((cur + k) % N) = a ((cur + k) % N)) :
    view N cur total b = view N cur total a :=
  List.map_congr_left fun k hk => h k (List.mem_range.1 hk)

/-- Different elements are in different slots. -/
theorem slot_ne {k l : ℕ} (hk : k < l) (hl : l < N) : (cur + k) % N ≠ (cur + l) % N := by
  intro h
  have hmod : k ≡ l [MOD N] := Nat.ModEq.add_left_cancel' cur h
  exact Nat.ne_of_lt hk (hmod.eq_of_lt_of_lt (hk.trans hl) hl)

/-- An element that is written behind the last one. -/
theorem view_push (cur : ℕ) (a : ℕ → α) (h : total < N) (x : α) :
    view N cur (total + 1) (Function.update a ((cur + total) % N) x) =
      view N cur total a ++ [x] := by
  rw [view, List.range_succ, List.map_append, List.map_singleton, Function.update_self, ← view]
  refine congrArg (· ++ [x]) (view_congr fun k hk => ?_)
  exact Function.update_of_ne (slot_ne hk h) _ _

/-- In a full ring the oldest element is overwritten. -/
theorem view_overwrite (h : cur < N) (x : α) :
    view N ((cur + 1) % N) N (Function.update a cur x) = (view N cur N a).tail ++ [x] := by
  obtain ⟨n, rfl⟩ := Nat.exists_eq_add_one.2 h.pos
  have hcur : ((cur + 1) % (n + 1) + n) % (n + 1) = cur := by
    rw [Nat.mod_add_mod, Nat.add_assoc, Nat.add_comm 1 n, Nat.add_mod_right, Nat.mod_eq_of_lt h]
  have hpush := view_push ((cur + 1) % (n + 1)) a n.lt_add_one x
  rw [hcur] at hpush
  rw [hpush, view_succ h, List.tail_cons]

/-- A full ring holds every slot. -/
theorem view_perm : (view N cur N a).Perm ((List.range N).map a) := by
  have hrotate : view N cur N a = ((List.range N).map a).rotate cur := by
    refine List.ext_getElem (by simp) fun k _ _ => ?_
    simp only [view, List.getElem_map, List.getElem_range, List.getElem_rotate, List.length_map,
      List.length_range, Nat.add_comm k cur]
  rw [hrotate]
  exact List.rotate_perm _ _

/-! ### The last elements of a history -/

variable {l old w : List α}

theorem rtake_eq_drop (l : List α) (n : ℕ) :
    l.rtake n = (l.rtake (n + 1)).drop (l.length - n - (l.length - (n + 1))) := by
  rw [List.rtake, List.rtake, List.drop_drop]
  congr 1
  omega

theorem length_rtake (l : List α) (n : ℕ) : (l.rtake n).length = min l.length n := by
  rw [List.rtake, List.length_drop]
  omega

/-- A new element, where fewer than `N` of the last ones are still held. -/
theorem rtake_concat_of_lt (h : l.rtake N = old ++ w) (hw : w.length < N) (x : α) :
    ∃ old', (l ++ [x]).rtake N = old' ++ (w ++ [x]) ∧ old' ⊆ old := by
  obtain ⟨n, rfl⟩ := Nat.exists_eq_add_one.2 hw.pos
  have hlen := length_rtake l (n + 1)
  rw [h, List.length_append] at hlen
  refine ⟨old.drop (l.length - n - (l.length - (n + 1))), ?_, List.drop_subset _ _⟩
  rw [List.rtake_concat_succ, rtake_eq_drop, h, List.drop_append_of_le_length (by omega),
    List.append_assoc]

/-- A new element, where all of the last ones are held. -/
theorem rtake_concat_of_le (hN : 0 < N) (h : N ≤ l.length) (x : α) :
    (l ++ [x]).rtake N = (l.rtake N).tail ++ [x] := by
  obtain ⟨n, rfl⟩ := Nat.exists_eq_add_one.2 hN
  have hone : l.length - n - (l.length - (n + 1)) = 1 := by omega
  rw [List.rtake_concat_succ, rtake_eq_drop, hone, List.drop_one]

end Ring
