import Balancer.Modules.Balancer.Average
import Balancer.Modules.Balancer.Iterator
import Balancer.Theory.Walk

/-!
# Policies that draw

What `pidgroup.cpp`, `fair.cpp` and `robust.cpp` have in common. `double` is taken as exact, and
what `RandomNumber<double>()` returns is given from outside. A backend is named by its number in the
configuration.
-/

namespace Balancer

/-- What can happen to a policy: a call of `DoNext` with the number that it draws, and the end of a
request to the backend `i`, with its duration in microseconds. -/
inductive TDrawEvent where
  | doNext (random : ℚ)
  | onCompleteRequest (i : Nat) (duration : UInt64)
  | onFailRequest (i : Nat) (duration : UInt64)

/-- A number that `RandomNumber<double>()` can return. -/
def Drawn (random : ℚ) : Prop := 0 ≤ random ∧ random < 1

/-- The event is about one of `n` backends. -/
def TDrawEvent.Within (n : Nat) : TDrawEvent → Prop
  | doNext random => Drawn random
  | onCompleteRequest i _ => i < n
  | onFailRequest i _ => i < n

/-- The backend `i` is changed by `f`. -/
def modifyBackEnd {β : Type} (i : Nat) (f : β → Except TFault β) (l : List β) :
    Except TFault (List β) :=
  match l[i]? with
  | some b => (f b).map fun b => l.set i b
  | none => .error .outOfBounds

namespace TDrawEvent

variable {σ : Type} {step : σ → TDrawEvent → Except TFault σ} {I : σ → Prop} {n : Nat}

/-- An invariant that every event keeps, so that none of them fails. -/
theorem run_invariant (hstep : ∀ s e, I s → e.Within n → ∃ s', step s e = .ok s' ∧ I s') {s : σ}
    {es : List TDrawEvent} (hI : I s) (hes : ∀ e ∈ es, e.Within n) :
    ∃ s', es.foldlM step s = .ok s' ∧ I s' :=
  Fallible.foldlM_succeeds (fun s e he hI => hstep s e hI (hes e he)) hI

end TDrawEvent

/-- A backend that is changed without a fault. -/
theorem modifyBackEnd_eq {β : Type} {i : Nat} {f : β → Except TFault β} {l : List β}
    (hi : i < l.length) {b : β} (hb : f l[i] = .ok b) : modifyBackEnd i f l = .ok (l.set i b) := by
  rw [modifyBackEnd, List.getElem?_eq_getElem hi]
  simp only [hb]
  rfl

end Balancer
