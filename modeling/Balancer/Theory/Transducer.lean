import Mathlib

/-!
# Transducers and what they owe

A transducer reads a stream and writes text for every element. An implementation that is called with
a piece of input and a bounded buffer may stop early, with input left and with text that it holds
back: what it owes is `pending`. Calls only move text from there to the buffer (`Moves`), so that a
buffer with room for everything is left with everything in it (`Moves.done`).
-/

/-- One step takes an element, and gives text and a new state. -/
structure Transducer (α β κ : Type*) where
  step : κ → α → List β × κ

namespace Transducer

variable {α β κ : Type*} (T : Transducer α β κ)

def output : κ → List α → List β
  | _, [] => []
  | k, a :: xs => (T.step k a).1 ++ output (T.step k a).2 xs

def state (k : κ) (xs : List α) : κ := xs.foldl (fun k a => (T.step k a).2) k

/-- The texts of successive pieces of a stream. -/
def outputs : κ → List (List α) → List (List β)
  | _, [] => []
  | k, xs :: xss => T.output k xs :: outputs (T.state k xs) xss

/-- The text of which the state `k` is reached, followed by that of the input that is left. -/
def pending (k : κ) (held : List β) (input : List α) : List β := held ++ T.output k input

variable {T} {k k' k'' : κ} {held held' held'' out out' : List β} {input rest rest' xs ys : List α}
  {room : ℕ}

@[simp] theorem output_nil : T.output k [] = [] := rfl

@[simp] theorem state_nil : T.state k [] = k := rfl

theorem output_append : T.output k (xs ++ ys) = T.output k xs ++ T.output (T.state k xs) ys := by
  induction xs generalizing k with
  | nil => rfl
  | cons a xs ih =>
    rw [List.cons_append, output, output, ih, List.append_assoc]
    rfl

theorem state_append : T.state k (xs ++ ys) = T.state (T.state k xs) ys := List.foldl_append

/-- What is owed before a call is what the call writes and what is owed after it. -/
structure Moves (T : Transducer α β κ) (k : κ) (held : List β) (input : List α) (out : List β)
    (k' : κ) (held' : List β) (rest : List α) : Prop where
  text : out ++ T.pending k' held' rest = T.pending k held input
  state : T.state k' rest = T.state k input

theorem Moves.trans (h : T.Moves k held input out k' held' rest)
    (h' : T.Moves k' held' rest out' k'' held'' rest') :
    T.Moves k held input (out ++ out') k'' held'' rest' where
  text := by rw [List.append_assoc, h'.text, h.text]
  state := h'.state.trans h.state

/-- A call stops when nothing is owed, or when the buffer is full and something is. -/
def Stops (T : Transducer α β κ) (room : ℕ) (out : List β) (k' : κ) (held' : List β)
    (rest : List α) : Prop :=
  (held' = [] ∧ rest = []) ∨ (out.length = room ∧ T.pending k' held' rest ≠ [])

/-- A buffer with room for everything gets everything. -/
theorem Moves.done (h : T.Moves k held input out k' held' rest)
    (hs : T.Stops room out k' held' rest) (hroom : (T.pending k held input).length ≤ room) :
    out = T.pending k held input ∧ k' = T.state k input ∧ held' = [] ∧ rest = [] := by
  rcases hs with ⟨rfl, rfl⟩ | ⟨hfull, howed⟩
  · exact ⟨by simpa [pending] using h.text, h.state, rfl, rfl⟩
  · have hlen := congrArg List.length h.text
    rw [List.length_append] at hlen
    have := List.length_pos_iff.2 howed
    omega

end Transducer
