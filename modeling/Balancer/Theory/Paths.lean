import Mathlib

/-!
# Paths

A directory is the list of names that lead to it from the root. The components of a path are moves:
to stay, to go up (at the root this is to stay), or to go down. However they are mixed, a path
amounts to some moves up followed by some moves down (`walk_eq`), which tells when it stays below
the directory where it starts (`prefix_walk_iff`).
-/

namespace Paths

variable {ν : Type}

inductive Move (ν : Type) where
  | stay
  | up
  | down (name : ν)
  deriving DecidableEq, Repr

def follow (dir : List ν) : Move ν → List ν
  | .stay => dir
  | .up => dir.dropLast
  | .down name => dir ++ [name]

def walk (dir : List ν) (moves : List (Move ν)) : List ν := moves.foldl follow dir

/-- Moves up, and then down. -/
structure Net (ν : Type) where
  ups : Nat := 0
  downs : List ν := []
  deriving DecidableEq, Repr

def Net.add (n : Net ν) : Move ν → Net ν
  | .stay => n
  | .up =>
    if n.downs = [] then { n with ups := n.ups + 1 } else { n with downs := n.downs.dropLast }
  | .down name => { n with downs := n.downs ++ [name] }

def net (moves : List (Move ν)) : Net ν := moves.foldl Net.add {}

/-- Where the moves lead. -/
def Net.apply (n : Net ν) (dir : List ν) : List ν := dir.take (dir.length - n.ups) ++ n.downs

theorem Net.follow_apply (n : Net ν) (dir : List ν) (m : Move ν) :
    follow (n.apply dir) m = (n.add m).apply dir := by
  cases m with
  | stay => rfl
  | down name => simp [follow, add, apply]
  | up =>
    by_cases h : n.downs = []
    · simp only [follow, add, apply, h, if_true, List.append_nil, List.dropLast_eq_take,
        List.length_take, List.take_take]
      congr 1
      omega
    · simp only [follow, add, apply, h, if_false]
      exact List.dropLast_append_of_ne_nil h

theorem walk_eq (dir : List ν) (moves : List (Move ν)) :
    walk dir moves = (net moves).apply dir := by
  have h : ∀ (moves : List (Move ν)) (n : Net ν),
      moves.foldl follow (n.apply dir) = (moves.foldl Net.add n).apply dir := by
    intro moves
    induction moves with
    | nil => exact fun _ => rfl
    | cons m moves ih =>
      intro n
      rw [List.foldl_cons, List.foldl_cons, n.follow_apply, ih]
  have h0 : ({} : Net ν).apply dir = dir := by simp [Net.apply]
  rw [walk, net, ← h, h0]

theorem walk_append (dir : List ν) (ms ms' : List (Move ν)) :
    walk dir (ms ++ ms') = walk (walk dir ms) ms' :=
  List.foldl_append

/-- The walk ends at or below `dir` exactly if the names that it left by going up are those by which
it comes down again. -/
theorem prefix_walk_iff (dir : List ν) (moves : List (Move ν)) :
    dir <+: walk dir moves ↔ dir.drop (dir.length - (net moves).ups) <+: (net moves).downs := by
  rw [walk_eq, Net.apply]
  nth_rewrite 1 [← List.take_append_drop (dir.length - (net moves).ups) dir]
  exact List.prefix_append_right_inj _

end Paths
