import Balancer.Modules.Balancer.Module

/-!
# Retrying a request

An attempt that has written nothing leaves `descr.Output` as it was, and only after such an attempt
is the next one started. So the client never sees parts of two replies (`doRun_single_reply`), and
the records of a run account for every attempt whose exception the handlers name
(`doRun_accounting_iff`).
-/

namespace Balancer

open BlockIO IReAskArbiter

namespace TBalancerState

variable {α β σ τ : Type} [IReAskArbiter α] [IIoInput σ] [IIoOutput τ]

/-- The record of attempt `a`, which ended with `result` in state `st`. -/
def record (a : TAttempt β) (result : Except TException Unit) (st : TBalancerState α σ τ)
    (arbiter : α) (calls : List TAccount) : TAttemptRecord α β τ :=
  ⟨a.conn, result, calls, arbiter, st.clientOutput.written, st.clientOutput.slave⟩

/-- The calls for a successful and for a failed attempt. -/
def succCalls (a : TAttempt β) : List TAccount :=
  [.onCompleteRequest (a.finish - a.start), .registerSucc]

def failCalls (a : TAttempt β) : List TAccount :=
  [.registerFail, .onFailRequest (a.finish - a.start)]

/-- One turn of the loop: the attempt succeeds, its exception is passed on without or with
accounting, or the loop goes on. -/
theorem loop_cases (env : Nat → TAttempt β) (attempts k : Nat) (st : TBalancerState α σ τ) :
    (∃ st₁, runAttempt (env k) st = (.ok (), st₁) ∧
      loop env (attempts + 1) k st =
        (.ok (), { st₁ with arbiter := registerSucc st₁.arbiter },
          [record (env k) (.ok ()) st₁ (registerSucc st₁.arbiter)
            (succCalls (env k))])) ∨
    (∃ e st₁, runAttempt (env k) st = (.error e, st₁) ∧ rethrown e = true ∧
      loop env (attempts + 1) k st =
        (.error e, st₁, [record (env k) (.error e) st₁ st₁.arbiter []])) ∨
    (∃ e st₁ st₂, runAttempt (env k) st = (.error e, st₁) ∧ rethrown e = false ∧
      (st₁.clientOutput.written ≠ 0 ∨
        authorize (registerFail st₁.arbiter) = false) ∧
      (st₂.clientInput, st₂.clientOutput) = (st₁.clientInput, st₁.clientOutput) ∧
      loop env (attempts + 1) k st =
        (.error e, st₂, [record (env k) (.error e) st₁ (registerFail st₁.arbiter)
          (failCalls (env k))])) ∨
    (∃ e st₁ st₂, runAttempt (env k) st = (.error e, st₁) ∧ rethrown e = false ∧
      st₁.clientOutput.written = 0 ∧ authorize st₂.arbiter = true ∧
      st₂ = { st₁ with arbiter := registerFail st₁.arbiter } ∧
      loop env (attempts + 1) k st =
        ((loop env attempts (k + 1) st₂).1, (loop env attempts (k + 1) st₂).2.1,
          record (env k) (.error e) st₁ (registerFail st₁.arbiter)
            (failCalls (env k)) :: (loop env attempts (k + 1) st₂).2.2)) := by
  rcases hr : runAttempt (env k) st with ⟨e | _, st₁⟩
  · simp only [loop, hr]
    cases hre : rethrown e with
    | true => exact .inr (.inl ⟨e, st₁, rfl, hre, rfl⟩)
    | false =>
      rw [if_neg (by decide)]
      by_cases hw : st₁.clientOutput.written = 0
      · rw [if_neg (not_not.mpr hw)]
        cases ha : authorize (registerFail st₁.arbiter) with
        | true => exact .inr (.inr (.inr ⟨e, st₁, _, rfl, hre, hw, ha, rfl, rfl⟩))
        | false =>
          exact .inr (.inr (.inl ⟨e, st₁,
            { st₁ with arbiter := registerFail st₁.arbiter },
            rfl, hre, .inr ha, rfl, rfl⟩))
      · rw [if_pos hw]
        exact .inr (.inr (.inl ⟨e, st₁,
          { st₁ with
            arbiter := registerFail st₁.arbiter, incomplete := st₁.incomplete + 1 },
          rfl, hre, .inl hw, rfl, rfl⟩))
  · simp only [loop, hr]
    exact .inl ⟨st₁, rfl, rfl⟩

end TBalancerState

open TBalancerState

variable {α β σ τ : Type}

/-! ### One reply -/

/-- `Written()` is the number of bytes that reached the slave since it had accepted `base`. -/
def Counted (base : List UInt8) (c : TCountOutput TWire) : Prop :=
  ∃ d, c.slave.accepted = base ++ d ∧ c.written = d.length

theorem Counted.send {base : List UInt8} {c : TCountOutput TWire} (h : Counted base c)
    (l : TChunkList) : Counted base (Sink.send c l).2 := by
  obtain ⟨d, hacc, hw⟩ := h
  rw [TCountOutput.send_eq, TCountOutput.doSend]
  rcases Wire.send_cases c.slave l with ⟨hok, hacc'⟩ | ⟨e, herr, hacc'⟩
  · rw [show Sink.send c.slave l = (.ok (), (Sink.send c.slave l).2) from Prod.ext hok rfl]
    refine ⟨d ++ l.flatten, ?_, ?_⟩
    · rw [hacc', hacc, List.append_assoc]
    · rw [hw, TChunkList.fullLength_eq, List.length_append]
  · rw [show Sink.send c.slave l = (.error e, (Sink.send c.slave l).2) from Prod.ext herr rfl]
    exact ⟨d, hacc'.trans hacc, hw⟩

theorem Counted.runAttempt [IIoInput σ] {base : List UInt8} {st st₁ : TBalancerState α σ TWire}
    {a : TAttempt β} (h : Counted base st.clientOutput)
    (hr : TBalancerState.runAttempt a st = (result, st₁)) : Counted base st₁.clientOutput := by
  have := Prog.run_sink (Q := Counted base) (fun _ l h => h.send l) a.module
    (s := st.clientInput.rewind) h
  rw [TBalancerState.runAttempt, Prod.mk.injEq] at hr
  rwa [← hr.2]

theorem Counted.accepted_of_written {base : List UInt8} {c : TCountOutput TWire}
    (h : Counted base c) (h0 : c.written = 0) : c.slave.accepted = base := by
  obtain ⟨d, hacc, hw⟩ := h
  have hd : d = [] := List.eq_nil_of_length_eq_zero (hw.symm.trans h0)
  rw [hacc, hd, List.append_nil]

/-- The records of the attempts from number `k` on are the runs of their modules: each module is run
on the rewound input, with the streams as the attempt before it has left them. -/
inductive Ran [IIoInput σ] [IIoOutput τ] (env : Nat → TAttempt β) :
    Nat → TRewindAbleInput σ × TCountOutput τ → List (TAttemptRecord α β τ) →
      TRewindAbleInput σ × TCountOutput τ → Prop
  | nil {k io} : Ran env k io [] io
  | cons {k io io₁ io' r rs} :
      (env k).module.run io.1.rewind io.2 = (r.result, io₁) → r.conn = (env k).conn →
      r.written = io₁.2.written → r.output = io₁.2.slave →
      Ran env (k + 1) io₁ rs io' → Ran env k io (r :: rs) io'

theorem Ran.record_cons [IIoInput σ] [IIoOutput τ] {env : Nat → TAttempt β} {k : Nat}
    {st st₁ : TBalancerState α σ τ} {result : Except TException Unit}
    (hr : runAttempt (env k) st = (result, st₁)) {arb : α} {calls : List TAccount}
    {rs : List (TAttemptRecord α β τ)} {io' : TRewindAbleInput σ × TCountOutput τ}
    (h : Ran env (k + 1) (st₁.clientInput, st₁.clientOutput) rs io') :
    Ran env k (st.clientInput, st.clientOutput) (record (env k) result st₁ arb calls :: rs)
      io' := by
  rw [runAttempt, Prod.mk.injEq] at hr
  refine .cons (Prod.ext hr.1 ?_) rfl rfl rfl h
  rw [← hr.2]

/-- What a run of the loop on the streams `io`, with the given number of attempts left, may do: its
records are the runs of the modules, only the last of them changes what `descr.Output` has accepted,
there are no more of them than attempts were left, and it returns iff the module of the last attempt
returned. -/
structure SingleReply [IIoInput σ] (env : Nat → TAttempt β) (k : Nat)
    (io : TRewindAbleInput σ × TCountOutput TWire) (attempts : Nat)
    (r : Except TException Unit × TBalancerState α σ TWire ×
      List (TAttemptRecord α β TWire)) : Prop where
  ran : Ran env k io r.2.2 (r.2.1.clientInput, r.2.1.clientOutput)
  quiet : ∀ a ∈ r.2.2.dropLast, a.output.accepted = io.2.slave.accepted
  output : r.2.1.clientOutput.slave.accepted =
    r.2.2.getLast?.elim io.2.slave.accepted (·.output.accepted)
  bound : r.2.2.length ≤ attempts
  returns : r.1 = .ok () ↔ ∃ a, r.2.2.getLast? = some a ∧ a.result = .ok ()

section
variable [IReAskArbiter α] [IIoInput σ]

theorem loop_singleReply (env : Nat → TAttempt β) (attempts k : Nat) (st : TBalancerState α σ TWire)
    (hw : st.clientOutput.written = 0) :
    SingleReply env k (st.clientInput, st.clientOutput) attempts (loop env attempts k st) := by
  induction attempts generalizing k st with
  | zero => exact ⟨.nil, by simp [loop], rfl, Nat.le_refl 0, by simp [loop]⟩
  | succ attempts ih =>
    rcases loop_cases env attempts k st with ⟨st₁, hr, e⟩ | ⟨ex, st₁, hr, -, e⟩ |
      ⟨ex, st₁, st₂, hr, -, -, hio, e⟩ | ⟨ex, st₁, st₂, hr, -, hw₁, -, hst₂, e⟩
    · rw [e]
      exact ⟨.record_cons hr .nil, by simp, rfl, by simp, by simp [record]⟩
    · rw [e]
      exact ⟨.record_cons hr .nil, by simp, rfl, by simp, by simp [record]⟩
    · rw [e]
      refine ⟨.record_cons hr ?_, by simp, ?_, by simp, by simp [record]⟩
      · rw [hio]
        exact .nil
      · simp [record, (Prod.mk.inj hio).2]
    · -- the attempt has failed and written nothing: the rest of the run starts as this one did
      have hbase : st₁.clientOutput.slave.accepted = st.clientOutput.slave.accepted :=
        (Counted.runAttempt ⟨[], (List.append_nil _).symm, hw⟩ hr).accepted_of_written hw₁
      have hio : (st₂.clientInput, st₂.clientOutput) = (st₁.clientInput, st₁.clientOutput) := by
        rw [hst₂]
      obtain ⟨ran, quiet, output, bound, returns⟩ := ih (k + 1) st₂ (by rw [hst₂]; exact hw₁)
      rw [e]
      generalize loop env attempts (k + 1) st₂ = r at ran quiet output bound returns ⊢
      rw [hio] at ran quiet output
      rw [hbase] at quiet output
      rcases hrs : r.2.2 with _ | ⟨b, rs⟩
      · rw [hrs] at ran output returns
        exact ⟨.record_cons hr ran, by simp, by simpa [record, hbase] using output, by simp,
          by simpa [record] using returns⟩
      · rw [hrs] at ran quiet output bound returns
        refine ⟨.record_cons hr ran, ?_, ?_, ?_, ?_⟩
        · intro a ha
          rw [List.dropLast_cons_of_ne_nil (List.cons_ne_nil _ _), List.mem_cons] at ha
          rcases ha with rfl | ha
          · exact hbase
          · exact quiet a ha
        · simpa [List.getLast?_cons_cons] using output
        · simpa using bound
        · simpa [List.getLast?_cons_cons] using returns

/-- All bytes that reach `descr.Output` come from the last attempt that was started. -/
theorem doRun_single_reply (env : Nat → TAttempt β) (attempts : Nat) (arbiter : α) (input : σ)
    (output : TWire) :
    SingleReply env 0 ({ slave := input }, { slave := output }) attempts
      (doRun env attempts arbiter input output) :=
  loop_singleReply env attempts 0 ⟨{ slave := input }, { slave := output }, arbiter, 0⟩ rfl

end

/-! ### Accounting -/

/-- The exceptions that are not held against the backend: a `THttpError` other than 5xx, and a
client that has closed its connection. -/
def Excused (e : TException) : Prop :=
  (∃ code, e.asHttpError = some code ∧ code / 100 ≠ 5) ∨
    (e.asHttpError = none ∧ e.asSystemError = some EPIPE)

/-- The exceptions of a class that one of the two handlers names. -/
def Named (e : TException) : Prop := e.asHttpError.isSome ∨ e.asSystemError.isSome

theorem rethrown_eq_false_iff {e : TException} : rethrown e = false ↔ Named e ∧ ¬Excused e := by
  cases e <;> simp [rethrown, Named, Excused, TException.asHttpError, TException.asSystemError,
    EPIPE]

theorem named_iff_excused {e : TException} (h : rethrown e = true) : Named e ↔ Excused e := by
  constructor
  · intro hn
    by_contra hx
    rw [rethrown_eq_false_iff.mpr ⟨hn, hx⟩] at h
    cases h
  · rintro (⟨code, hc, _⟩ | ⟨_, hs⟩)
    · exact .inl (by simp [hc])
    · exact .inr (by simp [hs])

variable [IReAskArbiter α]

/-- One attempt of a run that started `started` attempts of `attempts` is accounted for: once as a
success, once as a failure, or not at all for an excused exception; and after a failure without
output the next attempt is started if the arbiter authorizes it and attempts remain. -/
structure Accounted (attempts started i : Nat) (a : TAttemptRecord α β τ) : Prop where
  succ : a.result = .ok () →
    ∃ t, a.calls.Perm [.onCompleteRequest t, .registerSucc]
  fail : ∀ e, a.result = .error e → ¬Excused e →
    ∃ t, a.calls.Perm [.registerFail, .onFailRequest t]
  excused : ∀ e, a.result = .error e → Excused e → a.calls = []
  next : ∀ e, a.result = .error e → ¬Excused e → a.written = 0 →
    authorize a.arbiter = true → i + 1 < attempts → i + 1 < started

/-- Every attempt of a run is accounted for. -/
def AllAccounted (attempts : Nat) (rs : List (TAttemptRecord α β τ)) : Prop :=
  ∀ i a, rs[i]? = some a → Accounted attempts rs.length i a

theorem Accounted.succ_iff {attempts started i : Nat} {a : TAttemptRecord α β τ} :
    Accounted (attempts + 1) (started + 1) (i + 1) a ↔ Accounted attempts started i a := by
  constructor <;> intro h <;> refine ⟨h.succ, h.fail, h.excused, fun e he hx hw ha hi => ?_⟩
  · exact Nat.lt_of_succ_lt_succ (h.next e he hx hw ha (Nat.succ_lt_succ hi))
  · exact Nat.succ_lt_succ (h.next e he hx hw ha (Nat.lt_of_succ_lt_succ hi))

theorem AllAccounted.cons_iff {attempts : Nat} {a : TAttemptRecord α β τ}
    {rs : List (TAttemptRecord α β τ)} :
    AllAccounted (attempts + 1) (a :: rs) ↔
      Accounted (attempts + 1) (rs.length + 1) 0 a ∧ AllAccounted attempts rs := by
  constructor
  · intro h
    exact ⟨h 0 a rfl, fun i b hb => Accounted.succ_iff.mp (h (i + 1) b hb)⟩
  · rintro ⟨ha, h⟩ i b hb
    cases i with
    | zero =>
      cases hb
      exact ha
    | succ i => exact Accounted.succ_iff.mpr (h i b hb)

theorem AllAccounted.singleton_iff {attempts : Nat} {a : TAttemptRecord α β τ} :
    AllAccounted (attempts + 1) [a] ↔ Accounted (attempts + 1) 1 0 a := by
  rw [AllAccounted.cons_iff]
  exact and_iff_left fun i b hb => by cases hb

section
variable {a : TAttempt β} {st : TBalancerState α σ τ} {arb : α} {attempts started i : Nat}
  {e : TException}

theorem accounted_succ : Accounted attempts started i (record a (.ok ()) st arb (succCalls a)) where
  succ _ := ⟨_, .refl _⟩
  fail _ h := by cases h
  excused _ h := by cases h
  next _ h := by cases h

theorem accounted_fail (hx : ¬Excused e)
    (hnext : st.clientOutput.written = 0 → authorize arb = true →
      i + 1 < attempts → i + 1 < started) :
    Accounted attempts started i (record a (.error e) st arb (failCalls a)) where
  succ h := by cases h
  fail _ _ _ := ⟨_, .refl _⟩
  excused _ h hx' := by
    cases h
    exact absurd hx' hx
  next _ _ _ := hnext

/-- An attempt without a call is accounted for only if its exception is excused. -/
theorem accounted_rethrown_iff :
    Accounted attempts started i (record a (.error e) st arb []) ↔ Excused e := by
  constructor
  · intro h
    by_contra hx
    obtain ⟨t, hp⟩ := h.fail e rfl hx
    exact absurd hp.length_eq (by simp [record])
  · intro hx
    refine ⟨?_, ?_, fun _ _ _ => rfl, ?_⟩
    · intro h
      cases h
    · intro _ h hn
      cases h
      exact absurd hx hn
    · intro _ h hn
      cases h
      exact absurd hx hn

end

variable [IIoInput σ] [IIoOutput τ]

theorem loop_ne_nil (env : Nat → TAttempt β) {attempts : Nat} (h : 0 < attempts) (k : Nat)
    (st : TBalancerState α σ τ) : (loop env attempts k st).2.2 ≠ [] := by
  obtain ⟨attempts, rfl⟩ := Nat.exists_eq_add_one.2 h
  rcases loop_cases env attempts k st with ⟨_, _, e⟩ | ⟨_, _, _, _, e⟩ | ⟨_, _, _, _, _, _, _, e⟩ |
    ⟨_, _, _, _, _, _, _, _, e⟩ <;> rw [e] <;> exact List.cons_ne_nil _ _

/-- The records of a run account for its attempts iff no attempt throws an exception that neither
handler names. -/
theorem loop_accounted_iff (env : Nat → TAttempt β) (attempts k : Nat) (st : TBalancerState α σ τ) :
    AllAccounted attempts (loop env attempts k st).2.2 ↔
      ∀ a ∈ (loop env attempts k st).2.2, ∀ e, a.result = .error e → Named e := by
  induction attempts generalizing k st with
  | zero => simp [loop, AllAccounted]
  | succ attempts ih =>
    rcases loop_cases env attempts k st with ⟨st₁, hr, e⟩ | ⟨ex, st₁, hr, hre, e⟩ |
      ⟨ex, st₁, st₂, hr, hre, hstop, -, e⟩ | ⟨ex, st₁, st₂, hr, hre, -, -, -, e⟩
    · rw [e, AllAccounted.singleton_iff, iff_true_left accounted_succ]
      simp [record]
    · -- the exception left the handlers and there is no call for the attempt
      rw [e, AllAccounted.singleton_iff, accounted_rethrown_iff, ← named_iff_excused hre]
      simp [record]
    · obtain ⟨hn, hx⟩ := rethrown_eq_false_iff.mp hre
      rw [e, AllAccounted.singleton_iff]
      refine iff_of_true (accounted_fail hx fun hw₀ ha₀ => ?_) (by simpa [record] using hn)
      rcases hstop with hw | ha
      · exact absurd hw₀ hw
      · exact absurd (ha.symm.trans ha₀) (by decide)
    · obtain ⟨hn, hx⟩ := rethrown_eq_false_iff.mp hre
      rw [e, AllAccounted.cons_iff, ih (k + 1) st₂, List.forall_mem_cons]
      refine and_congr_left fun _ => iff_of_true (accounted_fail hx fun _ _ hi => ?_)
        (by simpa [record] using hn)
      have hne := loop_ne_nil env (Nat.lt_of_succ_lt_succ hi) (k + 1) st₂
      exact Nat.succ_lt_succ (List.length_pos_iff.mpr hne)

/-- A run accounts for every attempt exactly once, except for excused exceptions, iff no module
throws an exception of a class that neither handler names. -/
theorem doRun_accounting_iff (env : Nat → TAttempt β) (attempts : Nat) (arbiter : α) (input : σ)
    (output : τ) :
    AllAccounted attempts (doRun env attempts arbiter input output).2.2 ↔
      ∀ a ∈ (doRun env attempts arbiter input output).2.2, ∀ e, a.result = .error e → Named e :=
  loop_accounted_iff env attempts 0 _

/-- Two backends: the reply of the first one can not be decoded, the second one would answer. -/
def decodeFailure : Nat → TAttempt Bool
  | 0 => ⟨false, .throw (.streamError "no data"), 0, 1⟩
  | _ => ⟨true, .send [[79, 75]] fun _ => .ret, 1, 2⟩

/-- A `TStreamError` of the first of two attempts ends the request: it is recorded nowhere, and the
second attempt is not started although nothing was written and the arbiter authorizes it. -/
theorem doRun_not_accounted_streamError :
    ¬AllAccounted 2 (doRun decodeFailure 2 TFakeArbiter.mk TNullStream.mk
      (Wire.mk [] [] : TWire)).2.2 ∧
    (doRun decodeFailure 2 TFakeArbiter.mk TNullStream.mk (Wire.mk [] [] : TWire)).2.2 =
      [⟨false, .error (.streamError "no data"), [], TFakeArbiter.mk, 0, Wire.mk [] []⟩] := by
  refine ⟨fun h => ?_, rfl⟩
  obtain ⟨t, hp⟩ := (h 0 _ rfl).fail _ rfl (by
    rintro (⟨code, hc, _⟩ | ⟨_, hs⟩)
    · cases hc
    · cases hs)
  cases hp.length_eq

end Balancer
