import Balancer.Modules.Balancer.Module

/-!
# Backends for the attempts of a request

`modules/balancer/iterator.h`: a policy hands out backends, and the iterator of a request asks it
until it gets one that the request has not tried, as long as there can be one. `runIter` is `DoRun`
with its iterator; in `TBalancerState.doRun` the backends are given.
-/

namespace Balancer

open BlockIO IReAskArbiter

/-- The weight that is configured for a backend. -/
structure TBackEndDescriptor where
  weight : ℚ := 1

/-- `IBackEnds` over its state, for the `descr` of one request: `Next(descr, attempt)` and
`Size()`. -/
class IBackEnds (π : Type) (β : outParam Type) where
  next : π → Nat → β × π
  size : π → Nat

/-- `attempts` are the entries of `Attempts_` below `Cur_`, and `capacity` is the length of the
array. -/
structure TConnIterator (β : Type) where
  capacity : Nat := 16
  attempts : List β := []
  attempt : Nat := 0
  deriving DecidableEq, Repr

/-- How a call of `TConnIterator::Next` ends: with a backend, or with a write behind `Attempts_`. -/
inductive TNext (β π : Type) where
  | recorded (b : β) (it : TConnIterator β) (pool : π)
  | outOfBounds

namespace TConnIterator

variable {β π : Type} [DecidableEq β] [IBackEnds π β]

def cur (it : TConnIterator β) : Nat := it.attempts.length

/-- `AlreadyHave(b)`. -/
def alreadyHave (attempts : List β) (b : β) : Bool := b ∈ attempts

/-- The loop of `Next` when `attempts` are recorded: the backend that ends it, `Attempt_` and the
policy then; `none` when it has not ended after `fuel` calls of the policy. -/
def nextLoop (attempts : List β) : Nat → Nat → π → Option (β × Nat × π)
  | 0, _, _ => none
  | fuel + 1, attempt, pool =>
    let (b, pool) := IBackEnds.next pool attempt
    if alreadyHave attempts b ∧ attempts.length < IBackEnds.size pool then
      nextLoop attempts fuel (attempt + 1) pool
    else some (b, attempt + 1, pool)

/-- `Next(descr)`: the loop, and `Attempts_[Cur_++] = next`. -/
def next (fuel : Nat) (it : TConnIterator β) (pool : π) : Option (TNext β π) :=
  (nextLoop it.attempts fuel it.attempt pool).map fun (b, attempt, pool) =>
    if it.cur < it.capacity then
      .recorded b { it with attempts := it.attempts ++ [b], attempt } pool
    else .outOfBounds

/-- The backends of `n` calls of `Next` from number `k` on, with what others do to the policy before
each of them; `none` when one of the calls does not return a backend. -/
def calls (fuel : Nat) (others : Nat → π → π) : Nat → Nat → TConnIterator β → π → Option (List β)
  | 0, _, _, _ => some []
  | n + 1, k, it, pool =>
    match it.next fuel (others k pool) with
    | some (.recorded b it pool) => (calls fuel others n (k + 1) it pool).map (b :: ·)
    | _ => none

end TConnIterator

/-- What the environment decides in a request: the behaviour of the module of a backend in an
attempt, the readings of the clock, and what other requests do to the policy before an attempt. -/
structure TRequestEnv (β π : Type) where
  module : Nat → β → TBehaviour
  start : Nat → Nat
  finish : Nat → Nat
  others : Nat → π → π

/-- How a run of `DoRun` ends; `hangs` when a call of `Next` does not return. -/
inductive TRunEnd where
  | returned (result : Except TException Unit)
  | outOfBounds
  | hangs
  deriving DecidableEq

structure TBalancerRun (α β σ τ : Type) where
  ending : TRunEnd
  st : TBalancerState α σ τ
  records : List (TAttemptRecord α β τ)

namespace TBalancerState

variable {α β π σ τ : Type} [IReAskArbiter α] [IIoInput σ] [IIoOutput τ]

/-- The body of the loop of `DoRun` for one attempt: its record, and how the loop ends if it
does. -/
def turn (a : TAttempt β) (st : TBalancerState α σ τ) :
    TAttemptRecord α β τ × TBalancerState α σ τ × Option (Except TException Unit) :=
  let (result, st) := runAttempt a st
  let record (arbiter : α) (calls : List TAccount) : TAttemptRecord α β τ :=
    ⟨a.conn, result, calls, arbiter, st.clientOutput.written, st.clientOutput.slave⟩
  match result with
  | .ok () =>
    let arbiter := registerSucc st.arbiter
    (record arbiter [.onCompleteRequest (a.finish - a.start), .registerSucc], { st with arbiter },
      some (.ok ()))
  | .error e =>
    if rethrown e then (record st.arbiter [], st, some (.error e))
    else
      let arbiter := registerFail st.arbiter
      let st := { st with arbiter }
      let r := record arbiter [.registerFail, .onFailRequest (a.finish - a.start)]
      if st.clientOutput.written ≠ 0 then
        (r, { st with incomplete := st.incomplete + 1 }, some (.error e))
      else if !authorize arbiter then (r, st, some (.error e))
      else (r, st, none)

/-- The loop of `DoRun` on given backends, by its turns. -/
theorem loop_turn (env : Nat → TAttempt β) (attempts k : Nat) (st : TBalancerState α σ τ) :
    loop env (attempts + 1) k st =
      match turn (env k) st with
      | (r, st, some result) => (result, st, [r])
      | (r, st, none) =>
        let (result, st, rs) := loop env attempts (k + 1) st
        (result, st, r :: rs) := by
  rcases hr : runAttempt (env k) st with ⟨e | _, st₁⟩
  · simp only [loop, turn, hr]
    cases rethrown e with
    | true => rfl
    | false =>
      by_cases hw : st₁.clientOutput.written = 0
      · cases ha : authorize (registerFail st₁.arbiter) <;> simp [hw]
      · simp [hw]
  · simp only [loop, turn, hr]

variable [DecidableEq β] [IBackEnds π β]

/-- The loop of `DoRun` with `attempts` attempts left, the next of which is number `k`, on the
backends of the iterator `iter`. -/
def loopIter (env : TRequestEnv β π) (fuel : Nat) :
    Nat → Nat → TConnIterator β → π → TBalancerState α σ τ → TBalancerRun α β σ τ
  | 0, _, _, _, st => ⟨.returned (.error (.httpError 503 "all attempts failed")), st, []⟩
  | attempts + 1, k, iter, pool, st =>
    match iter.next fuel (env.others k pool) with
    | none => ⟨.hangs, st, []⟩
    | some .outOfBounds => ⟨.outOfBounds, st, []⟩
    | some (.recorded conn iter pool) =>
      match turn ⟨conn, env.module k conn, env.start k, env.finish k⟩ st with
      | (r, st, some result) => ⟨.returned result, st, [r]⟩
      | (r, st, none) =>
        let run := loopIter env fuel attempts (k + 1) iter pool st
        { run with records := r :: run.records }

/-- `DoRun(descr)` with an array of `capacity` entries in its iterator. -/
def runIter (env : TRequestEnv β π) (fuel capacity attempts : Nat) (pool : π) (arbiter : α)
    (input : σ) (output : τ) : TBalancerRun α β σ τ :=
  loopIter env fuel attempts 0 { capacity } pool
    { clientInput := { slave := input }, clientOutput := { slave := output }, arbiter }

end TBalancerState

end Balancer
