import Balancer.Verify.Attempts
import Balancer.Verify.RoundRobin
import Balancer.Verify.Retry

/-!
# One backend that answers is enough

The attempts of a request go to distinct backends of a round robin, so a request that may make an
attempt for every backend reaches each of them as long as those before it fail
(`roundRobin_available`).
-/

namespace Balancer

open BlockIO TBalancerState TConnIterator IReAskArbiter

/-- Every run of the module returns. -/
def Returns (σ τ : Type) [IIoInput σ] [IIoOutput τ] (m : TBehaviour) : Prop :=
  ∀ (s : TRewindAbleInput σ) (o : TCountOutput τ), (m.run s o).1 = .ok ()

/-- Every run of the module ends with an exception that is held against the backend, and sends
nothing. -/
def FailsQuietly (σ τ : Type) [IIoInput σ] [IIoOutput τ] (m : TBehaviour) : Prop :=
  ∀ (s : TRewindAbleInput σ) (o : TCountOutput τ),
    ∃ e, (m.run s o).1 = .error e ∧ rethrown e = false ∧ (m.run s o).2.2 = o

section
variable {α β π σ τ : Type} [IReAskArbiter α] [IIoInput σ] [IIoOutput τ] {a : TAttempt β}

theorem turn_answers (h : Returns σ τ a.module) (st : TBalancerState α σ τ) :
    ∃ r st', turn a st = (r, st', some (.ok ())) ∧ r.conn = a.conn := by
  have hr : runAttempt a st = (.ok (), (runAttempt a st).2) := Prod.ext (h _ _) rfl
  rw [turn, hr]
  exact ⟨_, _, rfl, rfl⟩

variable {st : TBalancerState α σ τ}

theorem turn_failsQuietly (h : FailsQuietly σ τ a.module) (hw : st.clientOutput.written = 0)
    (hauth : authorize (registerFail st.arbiter) = true) :
    ∃ r st', turn a st = (r, st', none) ∧ r.conn = a.conn ∧ r.output = st.clientOutput.slave ∧
      st'.clientOutput = st.clientOutput ∧ st'.arbiter = registerFail st.arbiter := by
  obtain ⟨e, he, hre, ho⟩ := h st.clientInput.rewind st.clientOutput
  have hr : runAttempt a st = (.error e, (runAttempt a st).2) := Prod.ext he rfl
  have hout : (runAttempt a st).2.clientOutput = st.clientOutput := ho
  refine ⟨⟨a.conn, .error e, failCalls a, registerFail st.arbiter, 0, st.clientOutput.slave⟩,
    { (runAttempt a st).2 with arbiter := registerFail st.arbiter }, ?_, rfl, rfl, hout, rfl⟩
  rw [turn, hr]
  have harb : (runAttempt a st).2.arbiter = st.arbiter := rfl
  simp [hre, hout, hw, harb, hauth, failCalls]

variable [DecidableEq β] [IBackEnds π β] {env : TRequestEnv β π} {fuel n k attempts : Nat}
  {it : TConnIterator β}
  {pool : π} {bs : List β} {up : β → Prop}

/-- The loop of `DoRun` goes through the backends of the iterator, up to the first one that
answers. -/
theorem loopIter_answered (st : TBalancerState α σ τ)
    (hup : ∀ k b, up b → Returns σ τ (env.module k b))
    (hdown : ∀ k b, ¬up b → FailsQuietly σ τ (env.module k b))
    (hcalls : calls fuel env.others n k it pool = some bs) (hle : n ≤ attempts)
    (hex : ∃ b ∈ bs, up b) (hw : st.clientOutput.written = 0)
    (hauth : ∀ j, authorize (registerFail^[j + 1] st.arbiter) = true) :
    ∃ st' rs r, loopIter env fuel attempts k it pool st = ⟨.returned (.ok ()), st', rs ++ [r]⟩ ∧
      (rs ++ [r]).map TAttemptRecord.conn <+: bs ∧ up r.conn ∧
      ∀ r ∈ rs, ¬up r.conn ∧ r.output = st.clientOutput.slave := by
  induction n generalizing k it pool bs st attempts with
  | zero =>
    cases hcalls
    obtain ⟨b, hb, -⟩ := hex
    cases hb
  | succ n ih =>
    obtain ⟨b, it', pool', bs', hn, hbs, rfl⟩ := calls_succ_eq_some.mp hcalls
    obtain ⟨attempts, rfl⟩ := Nat.exists_eq_add_of_le' (Nat.le_of_add_left_le hle)
    simp only [loopIter, hn]
    by_cases hb : up b
    · obtain ⟨r, st', ht, hconn⟩ :=
        turn_answers (a := ⟨b, env.module k b, env.start k, env.finish k⟩) (hup k b hb) st
      simp only [ht]
      exact ⟨st', [], r, rfl, by simp [hconn], by rwa [hconn], by simp⟩
    · obtain ⟨r, st', ht, hconn, hout, hclient, harb⟩ :=
        turn_failsQuietly (a := ⟨b, env.module k b, env.start k, env.finish k⟩) (hdown k b hb) hw
          (hauth 0)
      have hex' : ∃ b ∈ bs', up b := by
        obtain ⟨c, hc, hupc⟩ := hex
        exact ⟨c, (List.mem_cons.1 hc).resolve_left (by rintro rfl; exact hb hupc), hupc⟩
      have hauth' : ∀ j, authorize (registerFail^[j + 1] st'.arbiter) = true := by
        intro j
        rw [harb, ← Function.iterate_succ_apply]
        exact hauth (j + 1)
      obtain ⟨st₁, rs, r₁, hloop, hprefix, hup₁, hrs⟩ :=
        ih st' hbs (Nat.le_of_succ_le_succ hle) hex' (by rw [hclient, hw]) hauth'
      simp only [ht, hloop]
      refine ⟨st₁, r :: rs, r₁, rfl, ?_, hup₁, ?_⟩
      · rw [List.cons_append, List.map_cons, hconn]
        exact List.cons_prefix_cons.2 ⟨rfl, hprefix⟩
      · rw [List.forall_mem_cons]
        exact ⟨⟨by rwa [hconn], hout⟩, by rwa [hclient] at hrs⟩

end

namespace RRobin

variable {α σ τ : Type} [IReAskArbiter α] [IIoInput σ] [IIoOutput τ]

/-- The iterator hands out backends of the pool. -/
theorem calls_lt {size n k fuel : Nat} {step : Nat → ℚ} {p : TPool} {it : TConnIterator Nat}
    {bs : List Nat} {others : Nat → TPool → TPool}
    (hothers : ∀ k p, TPool.Over size step p → TPool.Over size step (others k p))
    (hp : TPool.Over size step p) (h : calls fuel others n k it p = some bs) :
    bs.length = n ∧ ∀ b ∈ bs, b < size := by
  induction n generalizing k it p bs with
  | zero =>
    cases h
    exact ⟨rfl, by simp⟩
  | succ n ih =>
    obtain ⟨b, it', p', bs', hn, hbs, rfl⟩ := calls_succ_eq_some.mp h
    obtain ⟨attempt', hl, -, rfl⟩ := next_recorded hn
    obtain ⟨hp', -, p₀, a, hp₀, rfl⟩ :=
      nextLoop_spec (P := TPool.Over size step) TPool.Over.next hl (hothers k p hp)
    obtain ⟨hlen, hlt⟩ := ih hp' hbs
    refine ⟨by rw [List.length_cons, hlen], List.forall_mem_cons.2 ⟨?_, hlt⟩⟩
    rw [← hp₀.1]
    exact TBackEnds.mem_servers.1 (List.head_mem (TBackEnds.servers_ne_nil p₀.2))

/-- If each backend either answers or fails without an output and one of them answers, a request
with an attempt for each of them succeeds, whatever other requests pick in between. It tries
distinct backends, all but the last of them fail, and nothing has reached the client before the last
attempt. -/
theorem roundRobin_available (address : Nat ↪ Nat) (descrs : List TBackEndDescriptor)
    (h : descrs ≠ []) (hcap : descrs.length ≤ 16) (hw : ∀ d ∈ descrs, 0 < d.weight)
    (env : TRequestEnv Nat TPool) {other : Nat → Nat}
    (hothers : env.others = fun k => TPool.picks (other k)) (up : Nat → Prop)
    (hup : ∀ k b, up b → Returns σ τ (env.module k b))
    (hdown : ∀ k b, ¬up b → FailsQuietly σ τ (env.module k b)) (hex : ∃ b < descrs.length, up b)
    {attempts : Nat} (hle : descrs.length ≤ attempts) (arbiter : α)
    (hauth : ∀ j, authorize (registerFail^[j + 1] arbiter) = true) (input : σ) (output : τ) :
    ∃ fuel st rs r, runIter env fuel 16 attempts (TPool.configured address descrs h) arbiter input
      output =
        ⟨.returned (.ok ()), st, rs ++ [r]⟩ ∧ ((rs ++ [r]).map TAttemptRecord.conn).Nodup ∧
        up r.conn ∧
      ∀ r ∈ rs, ¬up r.conn ∧ r.output = output := by
  have hp : TPool.Over descrs.length (TBackEnds.ofConfig address descrs).weightStep
      (TPool.configured address descrs h) := ⟨TBackEnds.size_ofConfig address descrs, rfl⟩
  have hpicks : ∀ k p, TPool.Over descrs.length (TBackEnds.ofConfig address descrs).weightStep p →
      TPool.Over descrs.length (TBackEnds.ofConfig address descrs).weightStep (env.others k p) := by
    intro k p hp
    rw [hothers]
    exact TPool.picks_induction TPool.Over.next (other k) hp
  have hall : ([] : List Nat).length + descrs.length = descrs.length := Nat.zero_add _
  obtain ⟨fuel, bs, hcalls, hnodup⟩ : ∃ fuel bs, calls fuel env.others descrs.length 0 {}
      (TPool.configured address descrs h) = some bs ∧ bs.Nodup := TPool.exists_calls hpicks hp
    ((TBackEnds.forall_weightStep_ofConfig address descrs (0 < ·)).mpr hw) hall.le
      (hall.trans_le hcap) List.nodup_nil
  obtain ⟨hlen, hlt⟩ := calls_lt hpicks hp hcalls
  -- distinct backends, as many as there are
  have hmem : ∃ b ∈ bs, up b := by
    obtain ⟨b, hb, hub⟩ := hex
    refine ⟨b, ?_, hub⟩
    have hsub : bs ⊆ List.range descrs.length := fun c hc => List.mem_range.2 (hlt c hc)
    exact (hnodup.subperm hsub).perm_of_length_le (by simp [hlen]) |>.mem_iff.2
      (List.mem_range.2 hb)
  obtain ⟨st, rs, r, hloop, hprefix, hur, hrs⟩ := loopIter_answered
    ⟨{ slave := input }, { slave := output }, arbiter, 0⟩ hup hdown hcalls hle hmem rfl hauth
  exact ⟨fuel, st, rs, r, hloop, List.Nodup.sublist hprefix.sublist hnodup, hur, hrs⟩

/-- The second backend answers, the first one fails. -/
def secondAnswers : TRequestEnv Nat TPool :=
  ⟨fun _ b => if b = 1 then .send [[79, 75]] fun _ => .ret else .throw (.httpError 503 ""), id, id,
    TPool.picks⟩

theorem roundRobin_available_second : ∃ fuel st rs r,
    runIter secondAnswers fuel 16 2
      (TPool.configured (.refl Nat) [{ weight := 3 }, {}] (List.cons_ne_nil _ _))
      TFakeArbiter.mk TNullStream.mk (Wire.mk [] [] : TWire) = ⟨.returned (.ok ()), st, rs ++ [r]⟩ ∧
      r.conn = 1 := by
  have hup : ∀ k b, b = 1 → Returns TNullStream TWire (secondAnswers.module k b) := by
    rintro k b rfl s o
    rfl
  have hdown : ∀ k b, ¬b = 1 → FailsQuietly TNullStream TWire (secondAnswers.module k b) := by
    intro k b hb s o
    rw [show secondAnswers.module k b = .throw (.httpError 503 "") from if_neg hb]
    exact ⟨_, rfl, by decide, rfl⟩
  obtain ⟨fuel, st, rs, r, hrun, -, hr, -⟩ := roundRobin_available (.refl Nat) [{ weight := 3 }, {}]
    (List.cons_ne_nil _ _) (by decide) (by simp) secondAnswers rfl (· = 1) hup hdown
      ⟨1, by decide, rfl⟩ (Nat.le_refl 2)
    TFakeArbiter.mk (fun _ => rfl) TNullStream.mk (Wire.mk [] [] : TWire)
  exact ⟨fuel, st, rs, r, hrun, hr⟩

end RRobin

/-- Whatever the policy is and other requests pick in between, a request that ends has one reply:
that of the last of the backends it was tried on. It accounts for its attempts unless a module
throws an exception that neither handler names. -/
theorem runIter_single_reply {α β π σ : Type} [IReAskArbiter α] [IIoInput σ] [DecidableEq β]
    [IBackEnds π β] (env : TRequestEnv β π) (fuel capacity attempts : Nat) (pool : π) (arbiter : α)
    (input : σ) (output : TWire) {run : TBalancerRun α β σ TWire}
    (hrun : runIter env fuel capacity attempts pool arbiter input output = run)
    {result : Except TException Unit} (h : run.ending = .returned result) :
    (∃ conns : Nat → β, SingleReply (fun i => attemptOn env i (conns i)) 0
      ({ slave := input }, { slave := output }) attempts (result, run.st, run.records)) ∧
      (AllAccounted attempts run.records ↔
        ∀ a ∈ run.records, ∀ e, a.result = .error e → Named e) := by
  subst hrun
  obtain ⟨conns, hconns⟩ := loopIter_returned env fuel attempts 0 _ pool _ h
  have hreply := loop_singleReply (fun i => attemptOn env i (conns i)) attempts 0
    ⟨{ slave := input }, { slave := output }, arbiter, 0⟩ rfl
  have haccounted := loop_accounted_iff (fun i => attemptOn env i (conns i)) attempts 0
    ⟨{ slave := input }, { slave := output }, arbiter, 0⟩
  rw [hconns] at hreply haccounted
  exact ⟨⟨conns, hreply⟩, haccounted⟩

theorem runIter_single_reply_unavailable : ∃ run : TBalancerRun TFakeArbiter Nat TNullStream TWire,
    run.records.length = 2 ∧ ∃ conns : Nat → Nat,
      SingleReply (fun i => attemptOn unavailable i (conns i)) 0
      ({ slave := TNullStream.mk }, { slave := Wire.mk [] [] }) 2
      (.error (.httpError 503 "all attempts failed"), run.st, run.records) :=
  ⟨_, by decide +kernel, (runIter_single_reply unavailable 1 16 2
    (.configured (.refl Nat) [{}] (List.cons_ne_nil _ _)) TFakeArbiter.mk TNullStream.mk
    (Wire.mk [] []) rfl (by decide +kernel)).1⟩

end Balancer
