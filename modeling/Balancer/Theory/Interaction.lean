import Balancer.Theory.BlockStream

/-!
# Interactive programs over a source and a sink

`Prog` is the type of all behaviours of a piece of code that is given one source to read from and
one sink to write to: it reads and sends in any order, its next move may depend on every answer so
far (failures included, which it may catch), and it finally returns or throws. Code whose behaviour
is left open is quantified over as a `Prog`.

The rules `run_received` and `run_sink` carry an invariant of one request or one send through a
whole run.
-/

namespace BlockIO

open Source Sink

inductive Prog (ε α : Type) where
  | ret
  | throw (e : ε)
  | recv (k : Except ε (List (List α)) → Prog ε α)
  | send (l : List (List α)) (k : Except ε Unit → Prog ε α)

namespace Prog

variable {σ τ ε α : Type} [Source σ ε α] [Sink τ ε α]

/-- Run a program to its end: how it ended, and the source and the sink it leaves. -/
def run : Prog ε α → σ → τ → Except ε Unit × σ × τ
  | ret, s, t => (.ok (), s, t)
  | throw e, s, t => (.error e, s, t)
  | recv k, s, t => (k (Source.recv s).1).run (Source.recv s).2 t
  | send l k, s, t => (k (Sink.send t l).1).run s (Sink.send t l).2

/-- The elements that a run is handed by its source, in order. -/
def received : Prog ε α → σ → τ → List α
  | ret, _, _ => []
  | throw _, _, _ => []
  | recv k, s, t =>
    (match (Source.recv s).1 with
      | .ok l => l.flatten
      | .error _ => []) ++ (k (Source.recv s).1).received (Source.recv s).2 t
  | send l k, s, t => (k (Sink.send t l).1).received s (Sink.send t l).2

/-- A relation between the elements handed out so far and the source that every request keeps holds
after the run. -/
theorem run_received {P : List α → σ → Prop}
    (hok : ∀ xs s l, P xs s → (Source.recv s).1 = .ok l → P (xs ++ l.flatten) (Source.recv s).2)
    (herr : ∀ xs s e, P xs s → (Source.recv s).1 = .error e → P xs (Source.recv s).2) (p : Prog ε α)
    {xs : List α} {s : σ} {t : τ} (h : P xs s) : P (xs ++ p.received s t) (p.run s t).2.1 := by
  induction p generalizing xs s t with
  | ret | throw => simpa [received, run] using h
  | recv k ih =>
    simp only [received, run, ← List.append_assoc]
    apply ih
    cases hr : (Source.recv s).1 with
    | ok l => exact hok _ _ _ h hr
    | error e => simpa using herr _ _ _ h hr
  | send l k ih => exact ih _ h

/-- A property of the sink that every send keeps holds after the run. -/
theorem run_sink {Q : τ → Prop} (hQ : ∀ t l, Q t → Q (Sink.send t l).2) (p : Prog ε α) {s : σ}
    {t : τ} (h : Q t) : Q (p.run s t).2.2 := by
  induction p generalizing s t with
  | ret | throw => exact h
  | recv k ih => exact ih _ h
  | send l k ih => exact ih _ (hQ t l h)

end Prog

end BlockIO
