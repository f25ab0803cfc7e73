import Balancer.Kernel.IoBase
import Balancer.Util.Green

/-!
# The balancer module

`modules/balancer/module.cpp`: one request is tried on several backends in turn. What the
environment decides in an attempt is its `TAttempt`: the backend the iterator returned, the
behaviour of its module and the readings of the clock. `doRun` also returns a record of every
attempt that it started, with the calls that account for it.
-/

namespace Balancer

open BlockIO

/-- `IReAskArbiter` over its state. -/
class IReAskArbiter (α : Type) where
  registerSucc : α → α
  registerFail : α → α
  authorize : α → Bool

/-- `TFakeArbiter` -/
structure TFakeArbiter where
  deriving DecidableEq

instance : IReAskArbiter TFakeArbiter where
  registerSucc a := a
  registerFail a := a
  authorize _ := true

/-- One attempt, as far as the environment decides it. -/
structure TAttempt (β : Type) where
  conn : β
  module : TBehaviour
  start : Nat
  finish : Nat

/-- The calls by which an attempt is accounted for, in the arbiter and in the chosen backend. -/
inductive TAccount where
  | onCompleteRequest (answerTime : Nat)
  | registerSucc
  | registerFail
  | onFailRequest (answerTime : Nat)
  deriving DecidableEq, Repr

/-- What became of a started attempt: how its module ended, the calls made for it, and the arbiter,
`Written()` and `descr.Output` after it. -/
structure TAttemptRecord (α β τ : Type) where
  conn : β
  result : Except TException Unit
  calls : List TAccount
  arbiter : α
  written : Nat
  output : τ

/-- The part of the module and of the locals of `DoRun` that an attempt changes. -/
structure TBalancerState (α σ τ : Type) where
  clientInput : TRewindAbleInput σ
  clientOutput : TCountOutput τ
  arbiter : α
  incomplete : Nat := 0

/-- The `try { throw; }` inside `catch (...)`: whether the exception leaves it. An exception of a
class that neither handler names leaves it as well. -/
def rethrown (e : TException) : Bool :=
  match e.asHttpError with
  | some code => code / 100 != 5
  | none =>
    match e.asSystemError with
    | some status => status == EPIPE
    | none => true

namespace TBalancerState

variable {α β σ τ : Type} [IReAskArbiter α] [IIoInput σ] [IIoOutput τ]

/-- `conn->Module()->Run(...)` on the rewound input. -/
def runAttempt (a : TAttempt β) (st : TBalancerState α σ τ) :
    Except TException Unit × TBalancerState α σ τ :=
  let (result, clientInput, clientOutput) := a.module.run st.clientInput.rewind st.clientOutput
  (result, { st with clientInput, clientOutput })

/-- The loop of `DoRun` with `attempts` attempts left, the next of which is number `k`. -/
def loop (env : Nat → TAttempt β) :
    Nat → Nat → TBalancerState α σ τ →
      Except TException Unit × TBalancerState α σ τ × List (TAttemptRecord α β τ)
  | 0, _, st => (.error (.httpError 503 "all attempts failed"), st, [])
  | attempts + 1, k, st =>
    let a := env k
    let (result, st) := runAttempt a st
    let record (arbiter : α) (calls : List TAccount) : TAttemptRecord α β τ :=
      ⟨a.conn, result, calls, arbiter, st.clientOutput.written, st.clientOutput.slave⟩
    match result with
    | .ok () =>
      let arbiter := IReAskArbiter.registerSucc st.arbiter
      (.ok (), { st with arbiter },
        [record arbiter [.onCompleteRequest (a.finish - a.start), .registerSucc]])
    | .error e =>
      if rethrown e then (.error e, st, [record st.arbiter []])
      else
        let arbiter := IReAskArbiter.registerFail st.arbiter
        let st := { st with arbiter }
        let r := record arbiter [.registerFail, .onFailRequest (a.finish - a.start)]
        if st.clientOutput.written ≠ 0 then
          (.error e, { st with incomplete := st.incomplete + 1 }, [r])
        else if !IReAskArbiter.authorize arbiter then (.error e, st, [r])
        else
          let (result, st, rs) := loop env attempts (k + 1) st
          (result, st, r :: rs)

/-- `DoRun(descr)` with the given input and output, in a module with the given `Attempts_`. -/
def doRun (env : Nat → TAttempt β) (attempts : Nat) (arbiter : α) (input : σ) (output : τ) :
    Except TException Unit × TBalancerState α σ τ × List (TAttemptRecord α β τ) :=
  loop env attempts 0
    { clientInput := { slave := input }, clientOutput := { slave := output }, arbiter }

end TBalancerState

end Balancer
