import Balancer.Util.Poller

/-!
# Registrations follow the lists

The implementation of `TContPoller` refines the model that only remembers the flags which were set
last: a descriptor is registered with the active poller exactly as these flags say (`Follows`).
Setting a change, moving from `poll` to the poller of the platform and the calls of `TContPoller`
keep that, whatever poller the platform has. So after any calls the registrations are those of the
lists (`registered_exact`).
-/

namespace Balancer

open Runs
open Function (update update_apply)

variable {κ : Type} {I : TPollerImpl κ}

/-- What a change asks for. -/
def TChange.registration (c : TChange) : Option TRegistration :=
  if c.flags = 0 then none else some (.of c.flags c.data)

theorem TChange.registration_of_ne {c : TChange} (h : c.flags ≠ 0) :
    c.registration = some (.of c.flags c.data) := if_neg h

/-! ### Setting a change -/

theorem TPollPoller.registered_set (p : TPollPoller) (c : TChange) :
    (p.set c).registered = update p.registered c.fd c.registration := by
  funext fd
  unfold set registered
  split
  · next h =>
    simp only [TIndexedArray.v_set, update_apply, c.registration_of_ne h]
    split <;> rfl
  · next h =>
    simp only [TIndexedArray.v_erase, update_apply, TChange.registration, if_pos (not_not.1 h)]
    split <;> rfl

theorem TPollerImpl.registered_set (I : TPollerImpl κ) (c : TChange) (d : κ) :
    ∃ d', I.set c d = some d' ∧ I.registered d' = update (I.registered d) c.fd c.registration := by
  unfold set
  split
  · next h =>
    rw [c.registration_of_ne h]
    exact I.registered_setImpl c.data c.fd c.flags d
  · next h =>
    rw [TChange.registration, if_pos (not_not.1 h)]
    exact ⟨_, rfl, I.registered_remove c.fd d⟩

theorem TCombinedPoller.registered_set (c : TChange) (p : TCombinedPoller κ) :
    ∃ p', p.set I c = some p' ∧
      p'.registered I = update (p.registered I) c.fd c.registration := by
  cases p with
  | poll p => exact ⟨_, rfl, p.registered_set c⟩
  | default d =>
    obtain ⟨d', hd, hr⟩ := I.registered_set c d
    exact ⟨.default d', by rw [set, hd]; rfl, hr⟩

/-! ### From `poll` to the poller of the platform -/

/-- Changes for different descriptors, set one by one. -/
theorem TPollerImpl.registered_foldlM (I : TPollerImpl κ) {cs : List TChange}
    (hnodup : (cs.map TChange.fd).Nodup) (d : κ) :
    ∃ d', cs.foldlM (fun d c => I.set c d) d = some d' ∧
      (∀ c ∈ cs, I.registered d' c.fd = c.registration) ∧
      ∀ fd, fd ∉ cs.map TChange.fd → I.registered d' fd = I.registered d fd := by
  induction cs generalizing d with
  | nil => exact ⟨d, rfl, fun _ hc => absurd hc List.not_mem_nil, fun _ _ => rfl⟩
  | cons c cs ih =>
    rw [List.map_cons, List.nodup_cons] at hnodup
    obtain ⟨d₁, hd₁, hr₁⟩ := I.registered_set c d
    obtain ⟨d', hd', hset, hframe⟩ := ih hnodup.2 d₁
    refine ⟨d', by rw [List.foldlM_cons, hd₁]; exact hd', ?_, ?_⟩
    · rw [List.forall_mem_cons]
      -- the changes that follow are for other descriptors
      exact ⟨by rw [hframe c.fd hnodup.1, hr₁, Function.update_self], hset⟩
    · intro fd hfd
      rw [List.map_cons, List.mem_cons, not_or] at hfd
      rw [hframe fd hfd.2, hr₁, Function.update_of_ne hfd.1]

namespace TPollPoller

theorem mem_toList {p : TPollPoller} {c : TChange} : c ∈ p.s.toList ↔ p.s.v c.fd = some c := by
  rw [TIndexedArray.toList, List.mem_filterMap]
  constructor
  · rintro ⟨n, -, hn⟩
    rw [(p.entry n c hn).1, hn]
  · intro h
    exact ⟨c.fd, (p.s.mem_i c.fd).2 (by rw [h]; rfl), h⟩

theorem map_fd_toList (p : TPollPoller) : p.s.toList.map TChange.fd = p.s.i := by
  rw [TIndexedArray.toList, List.map_filterMap]
  conv_rhs => rw [← List.filterMap_some (l := p.s.i)]
  apply List.filterMap_congr
  intro n hn
  obtain ⟨c, hc⟩ := Option.isSome_iff_exists.1 ((p.s.mem_i n).1 hn)
  rw [hc, Option.map_some, (p.entry n c hc).1]

/-- `Build` leaves the new poller with the registrations of the old one. -/
theorem registered_build (I : TPollerImpl κ) (p : TPollPoller) :
    ∃ d, p.build I I.init = some d ∧ I.registered d = p.registered := by
  have hnodup : (p.s.toList.map TChange.fd).Nodup := p.map_fd_toList ▸ p.s.nodup
  obtain ⟨d, hd, hset, hframe⟩ := I.registered_foldlM hnodup I.init
  refine ⟨d, hd, funext fun fd => ?_⟩
  rcases hv : p.s.v fd with - | c
  · have hfd : fd ∉ p.s.toList.map TChange.fd := by
      rw [map_fd_toList, p.s.mem_i, hv]
      exact Bool.false_ne_true
    rw [hframe fd hfd, I.registered_init, registered, hv]
    rfl
  · obtain ⟨rfl, hflags⟩ := p.entry fd c hv
    rw [hset c (mem_toList.2 hv), registered, hv, c.registration_of_ne hflags]
    rfl

end TPollPoller

theorem TCombinedPoller.registered_wait (p : TCombinedPoller κ) :
    ∃ p', p.wait I = some p' ∧ p'.registered I = p.registered I := by
  cases p with
  | poll p =>
    rw [wait]
    split
    · obtain ⟨d, hd, hr⟩ := p.registered_build I
      exact ⟨.default d, by rw [hd]; rfl, hr⟩
    · exact ⟨_, rfl, rfl⟩
  | default d => exact ⟨_, rfl, rfl⟩

/-! ### Refinement -/

namespace TContPollerImpl

variable {α : Type} [DecidableEq α]

omit [DecidableEq α] in
theorem set_update (a : TContPoller α) {fd : Nat} {lst : List (IPollEvent α)} (hnodup : lst.Nodup)
    (hlisted : ∀ ev ∈ lst, ev.fd = fd) :
    (a.update fd lst hnodup hlisted).set =
      if pollFlags lst ≠ pollFlags (a.list fd) then Function.update a.set fd (pollFlags lst)
      else a.set := rfl

/-- The lists are those of the model, and the registrations are what its last flags ask for. -/
structure Follows (I : TPollerImpl κ) (s : TContPollerImpl α κ) (a : TContPoller α) : Prop where
  lists : s.lists = a.list
  registered : ∀ fd, s.p.registered I fd = TChange.registration ⟨fd, fd, a.set fd⟩

variable {s : TContPollerImpl α κ} {a : TContPoller α} {ev : IPollEvent α}

omit [DecidableEq α] in
theorem Follows.init : Follows I ({} : TContPollerImpl α κ) {} := ⟨rfl, fun _ => rfl⟩

omit [DecidableEq α] in
theorem Follows.update (H : Follows I s a) {fd : Nat} {lst : List (IPollEvent α)}
    (hnodup : lst.Nodup) (hlisted : ∀ ev ∈ lst, ev.fd = fd) :
    ∃ s', s.update I fd lst = some s' ∧ Follows I s' (a.update fd lst hnodup hlisted) := by
  rw [TContPollerImpl.update, H.lists]
  split
  · next hflags =>
    obtain ⟨p', hp, hr⟩ := TCombinedPoller.registered_set (I := I) ⟨fd, fd, pollFlags lst⟩ s.p
    refine ⟨_, by rw [hp]; rfl, rfl, fun fd' => ?_⟩
    rw [hr, set_update, if_pos hflags, update_apply, update_apply]
    split
    · next h => rw [h]
    · exact H.registered fd'
  · next hflags =>
    refine ⟨_, rfl, rfl, fun fd' => ?_⟩
    rw [set_update, if_neg hflags]
    exact H.registered fd'

theorem Follows.schedule (H : Follows I s a) (ev : IPollEvent α) :
    ∃ s', s.schedule I ev = some s' ∧ Follows I s' (a.schedule ev) := by
  rw [TContPollerImpl.schedule, H.lists]
  exact H.update _ _

theorem Follows.remove (H : Follows I s a) (ev : IPollEvent α) :
    ∃ s', s.remove I ev = some s' ∧ Follows I s' (a.remove ev) := by
  rw [TContPollerImpl.remove, H.lists]
  exact H.update _ _

omit [DecidableEq α] in
theorem Follows.wait (H : Follows I s a) : ∃ s', s.wait I = some s' ∧ Follows I s' a := by
  obtain ⟨p', hp, hr⟩ := TCombinedPoller.registered_wait (I := I) s.p
  refine ⟨{ s with p := p' }, by rw [TContPollerImpl.wait, hp]; rfl, H.lists, fun fd => ?_⟩
  rw [hr]
  exact H.registered fd

/-- A call on the model, which has no poller to wait for. -/
def call (a : TContPoller α) : TContPollerCall α → TContPoller α
  | .schedule ev => a.schedule ev
  | .remove ev => a.remove ev
  | .wait => a

theorem Follows.step (H : Follows I s a) (e : TContPollerCall α) :
    ∃ s', (system I).step s e = some s' ∧ Follows I s' (call a e) := by
  cases e with
  | schedule ev => exact H.schedule ev
  | remove ev => exact H.remove ev
  | wait => exact H.wait

theorem Follows.run (H : Follows I s a) (es : List (TContPollerCall α)) :
    ∃ s', (system I).run s es = some s' ∧ Follows I s' (es.foldl call a) := by
  induction es generalizing s a with
  | nil => exact ⟨s, rfl, H⟩
  | cons e es ih =>
    obtain ⟨s₁, hs, H₁⟩ := H.step e
    rw [System.run_cons hs]
    exact ih H₁

/-! ### The events in the lists -/

/-- The event was scheduled and not removed since. -/
def Scheduled (ev : IPollEvent α) (es : List (TContPollerCall α)) : Prop :=
  ∃ pre post, es = pre ++ .schedule ev :: post ∧ .remove ev ∉ post

omit [DecidableEq α] in
theorem scheduled_concat {es : List (TContPollerCall α)} {e : TContPollerCall α} :
    Scheduled ev (es ++ [e]) ↔ e = .schedule ev ∨ e ≠ .remove ev ∧ Scheduled ev es := by
  constructor
  · rintro ⟨pre, post, hes, hpost⟩
    rcases List.eq_nil_or_concat post with rfl | ⟨post, e', rfl⟩
    · exact .inl (List.cons.inj (List.append_inj' hes rfl).2).1
    · have hsplit : es ++ [e] = (pre ++ .schedule ev :: post) ++ [e'] := by simpa using hes
      obtain ⟨rfl, he⟩ := List.append_inj' hsplit rfl
      cases he
      rw [List.concat_eq_append, List.mem_append, not_or, List.mem_singleton] at hpost
      exact .inr ⟨Ne.symm hpost.2, pre, post, rfl, hpost.1⟩
  · rintro (rfl | ⟨hne, pre, post, rfl, hpost⟩)
    · exact ⟨es, [], rfl, by simp⟩
    · exact ⟨pre, post ++ [e], by simp, by simp [hpost, hne.symm]⟩

theorem mem_foldl_call_iff (es : List (TContPollerCall α)) (fd : Nat) (ev : IPollEvent α) :
    ev ∈ (es.foldl call {}).list fd ↔ ev.fd = fd ∧ Scheduled ev es := by
  induction es using List.reverseRecOn with
  | nil => simp [Scheduled]
  | append_singleton es e ih =>
    rw [List.foldl_concat, scheduled_concat]
    cases e with
    | schedule ev' =>
      rw [call, TContPoller.mem_schedule, ih]
      constructor
      · rintro (⟨rfl, rfl⟩ | ⟨hfd, h⟩)
        · exact ⟨rfl, .inl rfl⟩
        · exact ⟨hfd, .inr ⟨by simp, h⟩⟩
      · rintro ⟨rfl, h | ⟨-, h⟩⟩
        · cases h
          exact .inl ⟨rfl, rfl⟩
        · exact .inr ⟨rfl, h⟩
    | remove ev' =>
      simp [call, TContPoller.mem_remove, ih, and_assoc, eq_comm, and_comm (a := Scheduled ev es)]
    | wait => simp [call, ih]

/-- After any calls of `Schedule`, `Remove` and `Wait`, with any poller of the platform: a
descriptor is registered with the active poller for what the events in its list want together, and
with that list as data; it is not registered if they want nothing, in particular if the list is
empty. The list holds the events of the descriptor that were scheduled and not removed since. -/
theorem registered_exact (I : TPollerImpl κ) (es : List (TContPollerCall α)) :
    ∃ s, (system I).run ({} : TContPollerImpl α κ) es = some s ∧
      (∀ fd, s.p.registered I fd =
        if pollFlags (s.lists fd) = 0 then none else some (.of (pollFlags (s.lists fd)) fd)) ∧
      ∀ fd ev, ev ∈ s.lists fd ↔ ev.fd = fd ∧ Scheduled ev es := by
  obtain ⟨s, hrun, H⟩ := (Follows.init (I := I)).run es
  refine ⟨s, hrun, fun fd => ?_, fun fd ev => ?_⟩
  · rw [H.registered, TContPoller.registered, H.lists]
    rfl
  · rw [H.lists, mem_foldl_call_iff]

end TContPollerImpl

end Balancer
