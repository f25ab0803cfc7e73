import Balancer.Modules.Balancer.RRobin

/-!
# The array of tried backends

Every attempt of a request takes an entry of `Attempts_`, which has 16 of them, and nothing but
`Attempts_` of the module bounds the attempts. The entries suffice iff at most 16 attempts are
configured or one of the first 16 ends the request (`attempts_inBounds_iff`).
-/

namespace Balancer

open BlockIO IReAskArbiter

namespace TBalancerState

variable {α β π σ τ : Type} [IReAskArbiter α] [IIoInput σ] [IIoOutput τ]

/-- The attempts that were made do not matter for the loop any more. -/
theorem loop_congr {env env' : Nat → TAttempt β} {attempts k : Nat}
    (h : ∀ i, k ≤ i → env i = env' i) (st : TBalancerState α σ τ) :
    loop env attempts k st = loop env' attempts k st := by
  induction attempts generalizing k st with
  | zero => rfl
  | succ attempts ih =>
    rw [loop_turn, loop_turn, h k (Nat.le_refl k)]
    rcases turn (env' k) st with ⟨r, st₁, _ | result⟩
    · simp only [ih (fun i hi => h i (Nat.le_of_succ_le hi)) st₁]
    · rfl

/-- The loop goes on after an attempt: its module has thrown an exception that is held against the
backend, nothing was written, and the arbiter authorizes another attempt. -/
def Retried (a : TAttempt β) (st st₁ : TBalancerState α σ τ) : Prop :=
  ∃ e input output,
    a.module.run st.clientInput.rewind st.clientOutput = (.error e, input, output) ∧
    rethrown e = false ∧ output.written = 0 ∧
    authorize (registerFail st.arbiter) = true ∧
    st₁ = { st with
      clientInput := input, clientOutput := output
      arbiter := registerFail st.arbiter }

theorem turn_eq_none_iff {a : TAttempt β} {st st₁ : TBalancerState α σ τ} :
    (turn a st).2 = (st₁, none) ↔ Retried a st st₁ := by
  rcases hr : a.module.run st.clientInput.rewind st.clientOutput with ⟨e | _, input, output⟩
  · cases hre : rethrown e with
    | true => simp [turn, runAttempt, Retried, hr, hre]
    | false =>
      by_cases hw : output.written = 0
      · cases ha : authorize (registerFail st.arbiter) <;>
          simp [turn, runAttempt, Retried, hr, hre, hw, ha, eq_comm (a := st₁)]
      · simp [turn, runAttempt, Retried, hr, hre, hw]
  · simp [turn, runAttempt, Retried, hr]

variable [DecidableEq β] [IBackEnds π β] (env : TRequestEnv β π) (fuel : Nat)

/-- The attempt number `k` on a backend. -/
def attemptOn (k : Nat) (conn : β) : TAttempt β :=
  ⟨conn, env.module k conn, env.start k, env.finish k⟩

theorem loopIter_hangs {attempts k attempt : Nat} {tried : List β} {pool : π}
    (hn : TConnIterator.nextLoop tried fuel attempt (env.others k pool) = none)
    (st : TBalancerState α σ τ) (c : Nat) :
    loopIter env fuel (attempts + 1) k ⟨c, tried, attempt⟩ pool st = ⟨.hangs, st, []⟩ := by
  simp only [loopIter, TConnIterator.next, hn, Option.map_none]

/-- A turn for which `Next` has found a backend. -/
theorem loopIter_found {attempts k attempt attempt' : Nat} {tried : List β} {conn : β}
    {pool pool' : π} (hn : TConnIterator.nextLoop tried fuel attempt (env.others k pool) =
      some (conn, attempt', pool')) (st : TBalancerState α σ τ) (c : Nat) :
    loopIter env fuel (attempts + 1) k ⟨c, tried, attempt⟩ pool st =
      if tried.length < c then
        match turn (attemptOn env k conn) st with
        | (r, st, some result) => ⟨.returned result, st, [r]⟩
        | (r, st, none) =>
          let run := loopIter env fuel attempts (k + 1) ⟨c, tried ++ [conn], attempt'⟩ pool' st
          { run with records := r :: run.records }
      else ⟨.outOfBounds, st, []⟩ := by
  have hnext : TConnIterator.next fuel ⟨c, tried, attempt⟩ (env.others k pool) =
      some (if tried.length < c then .recorded conn ⟨c, tried ++ [conn], attempt'⟩ pool'
        else .outOfBounds) := by
    rw [TConnIterator.next, hn]
    rfl
  by_cases hc : tried.length < c
  · rw [if_pos hc] at hnext ⊢
    simp only [loopIter, hnext]
    rfl
  · rw [if_neg hc] at hnext ⊢
    simp only [loopIter, hnext]

/-- A run that returns is a run of the loop on the backends that the iterator gave. -/
theorem loopIter_returned (attempts k : Nat) (iter : TConnIterator β) (pool : π)
    (st : TBalancerState α σ τ) {result : Except TException Unit}
    (h : (loopIter env fuel attempts k iter pool st).ending = .returned result) :
    ∃ conns : Nat → β, loop (fun i => attemptOn env i (conns i)) attempts k st =
      (result, (loopIter env fuel attempts k iter pool st).st,
        (loopIter env fuel attempts k iter pool st).records) := by
  induction attempts generalizing k iter pool st with
  | zero =>
    cases h
    exact ⟨fun _ => (IBackEnds.next pool 0).1, rfl⟩
  | succ attempts ih =>
    obtain ⟨c, tried, attempt⟩ := iter
    rcases hn : TConnIterator.nextLoop tried fuel attempt (env.others k pool) with
      _ | ⟨conn, attempt', pool'⟩
    · rw [loopIter_hangs env fuel hn] at h
      cases h
    · rw [loopIter_found env fuel hn] at h ⊢
      by_cases hc : tried.length < c
      · rw [if_pos hc] at h ⊢
        rcases ht : turn (attemptOn env k conn) st with ⟨r, st₁, _ | result'⟩
        · rw [ht] at h
          obtain ⟨conns, hconns⟩ := ih (k + 1) _ pool' st₁ h
          refine ⟨Function.update conns k conn, ?_⟩
          have hlater : loop (fun i => attemptOn env i (Function.update conns k conn i)) attempts
              (k + 1) st₁ = loop (fun i => attemptOn env i (conns i)) attempts (k + 1) st₁ := by
            refine loop_congr (fun i hi => ?_) st₁
            rw [Function.update_of_ne (Nat.ne_of_gt hi)]
          rw [loop_turn, Function.update_self, ht]
          simp only [hlater, hconns]
        · rw [ht] at h
          cases h
          refine ⟨fun _ => conn, ?_⟩
          rw [loop_turn, ht]
      · rw [if_neg hc] at h
        cases h

/-- Where the loop stands in front of an attempt. -/
structure TPosition (α β π σ τ : Type) where
  k : Nat
  tried : List β
  attempt : Nat
  pool : π
  st : TBalancerState α σ τ

/-- The backend that `Next` finds, if it finds one. -/
def TPosition.found (p : TPosition α β π σ τ) : Option (β × Nat × π) :=
  TConnIterator.nextLoop p.tried fuel p.attempt (env.others p.k p.pool)

/-- `Next` finds a backend, and the loop goes on after the attempt on it. -/
inductive Retry : TPosition α β π σ τ → TPosition α β π σ τ → Prop
  | mk {p conn attempt' pool' st₁} : p.found env fuel = some (conn, attempt', pool') →
      Retried (attemptOn env p.k conn) p.st st₁ →
      Retry p ⟨p.k + 1, p.tried ++ [conn], attempt', pool', st₁⟩

/-- An array of `c` entries is overrun iff more attempts are left than entries, every one that has
an entry is retried, and `Next` finds a backend for one more. -/
theorem loopIter_outOfBounds_iff {c : Nat} (attempts : Nat) (p : TPosition α β π σ τ)
    (hc : p.tried.length ≤ c) :
    (loopIter env fuel attempts p.k ⟨c, p.tried, p.attempt⟩ p.pool p.st).ending = .outOfBounds ↔
      c < p.tried.length + attempts ∧ ∃ q, Relation.ReflTransGen (Retry env fuel) p q ∧
        q.tried.length = c ∧ (q.found env fuel).isSome := by
  induction attempts generalizing p with
  | zero => exact iff_of_false (fun h => by cases h) fun h => Nat.not_lt.mpr hc h.1
  | succ attempts ih =>
    rcases hn : p.found env fuel with _ | ⟨conn, attempt', pool'⟩
    · rw [loopIter_hangs env fuel hn]
      refine iff_of_false (fun h => by cases h) ?_
      rintro ⟨-, q, hq, -, hfound⟩
      rcases Relation.ReflTransGen.cases_head hq with rfl | ⟨q', hstep, -⟩
      · simp [hn] at hfound
      · cases hstep with | mk hn' _ => cases hn.symm.trans hn'
    · rw [loopIter_found env fuel hn]
      by_cases hlt : p.tried.length < c
      · -- the position in front of the last attempt is a later one
        have hhead : ∀ q, Relation.ReflTransGen (Retry env fuel) p q → q.tried.length = c →
            ∃ st₁, Retried (attemptOn env p.k conn) p.st st₁ ∧ Relation.ReflTransGen
              (Retry env fuel) ⟨p.k + 1, p.tried ++ [conn], attempt', pool', st₁⟩ q := by
          intro q hq hqc
          rcases Relation.ReflTransGen.cases_head hq with rfl | ⟨q', hstep, hq'⟩
          · exact absurd hqc (Nat.ne_of_lt hlt)
          · cases hstep with
            | mk hn' hr =>
              cases hn.symm.trans hn'
              exact ⟨_, hr, hq'⟩
        rw [if_pos hlt]
        rcases ht : turn (attemptOn env p.k conn) p.st with ⟨r, st₁, _ | result⟩
        · have hr : Retried (attemptOn env p.k conn) p.st st₁ := turn_eq_none_iff.mp (by rw [ht])
          have hlen : (p.tried ++ [conn]).length = p.tried.length + 1 := List.length_append
          refine (ih ⟨p.k + 1, p.tried ++ [conn], attempt', pool', st₁⟩
            (hlen.trans_le hlt)).trans ?_
          refine and_congr (by simp only [hlen]; omega) (exists_congr fun q => ?_)
          refine and_congr_left fun ⟨hqc, _⟩ => ⟨.head (.mk hn hr), fun hq => ?_⟩
          obtain ⟨st₂, hr₂, hq⟩ := hhead q hq hqc
          have := (turn_eq_none_iff.mpr hr).symm.trans (turn_eq_none_iff.mpr hr₂)
          cases this
          exact hq
        · refine iff_of_false (fun h => by cases h) ?_
          rintro ⟨-, q, hq, hqc, -⟩
          obtain ⟨st₂, hr₂, -⟩ := hhead q hq hqc
          have := turn_eq_none_iff.mpr hr₂
          rw [ht] at this
          cases this
      · rw [if_neg hlt]
        exact iff_of_true rfl ⟨by omega, p, .refl, by omega, by rw [hn]; rfl⟩

end TBalancerState

open TBalancerState

variable {α β π σ τ : Type} [IReAskArbiter α] [IIoInput σ] [IIoOutput τ] [DecidableEq β]
  [IBackEnds π β]

/-- For every policy, configuration and request: no attempt is recorded outside the array iff at
most 16 attempts are configured, or one of the first 16 ends the request, or `Next` finds no backend
for another one. -/
theorem attempts_inBounds_iff (env : TRequestEnv β π) (fuel attempts : Nat) (pool : π) (arbiter : α)
    (input : σ) (output : τ) :
    (runIter env fuel 16 attempts pool arbiter input output).ending ≠ .outOfBounds ↔
      attempts ≤ 16 ∨ ∀ p, Relation.ReflTransGen (Retry env fuel)
        ⟨0, [], 0, pool, { clientInput := { slave := input }, clientOutput := { slave := output }
                           arbiter }⟩ p →
        p.tried.length = 16 → p.found env fuel = none := by
  have h := loopIter_outOfBounds_iff env fuel attempts
    ⟨0, [], 0, pool, ⟨{ slave := input }, { slave := output }, arbiter, 0⟩⟩ (Nat.zero_le 16)
  rw [List.length_nil, Nat.zero_add] at h
  refine (not_congr h).trans ?_
  rw [not_and_or, Nat.not_lt]
  simp only [not_exists, not_and, Bool.not_eq_true, Option.isSome_eq_false_iff,
    Option.isNone_iff_eq_none]

/-- Every attempt fails with a 503. -/
def unavailable : TRequestEnv Nat RRobin.TPool :=
  ⟨fun _ _ => .throw (.httpError 503 "unavailable"), id, id, fun _ => id⟩

/-- One backend that always fails and 17 attempts: the last one is recorded outside the array. -/
theorem attempts_outOfBounds :
    (runIter unavailable 1 16 17 (.configured (.refl Nat) [{}] (List.cons_ne_nil _ _))
      TFakeArbiter.mk TNullStream.mk (Wire.mk [] [] : TWire)).ending = .outOfBounds := by
  decide +kernel

end Balancer
