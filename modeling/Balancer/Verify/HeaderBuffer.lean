import Balancer.Verify.RequestId

/-!
# The buffer of the headers module

One `DoRun` takes the texts of its headers from one buffer, which has room for one address, a time,
an id and a port. There are at most two addresses and no port, and an address is longer than a port;
so the buffer is too short exactly if two addresses are generated.
-/

namespace Balancer

open Http11 (ascii)

namespace Headers

/-- The ranges that `Alloc` hands out for some lengths, where the assertion is compiled out. -/
def TBuf.ranges (buf : TBuf) : List Nat → List (Nat × Nat)
  | [] => []
  | len :: lens => (buf.used, buf.used + len) :: TBuf.ranges { used := buf.used + len } lens

namespace TModule

/-- The generators that one `DoRun` calls, in order. -/
def called (m : TModule) (r : TRequest) : List IHdrGen :=
  match m.keepRealIp with
  | none => m.generators.map Prod.fst
  | some k =>
    if r.headers.any fun h => k.1 h.key.flatten then m.generators.map Prod.fst
    else .realIp :: m.generators.map Prod.fst

/-- What they request of the buffer, together. -/
def demand (m : TModule) (r : TRequest) : Nat := ((m.called r).map IHdrGen.len).sum

variable {m : TModule} {p : TParams} {r : TRequest}

theorem called_adds (h : m.AddsRealIp r) : m.called r = .realIp :: m.generators.map Prod.fst := by
  obtain ⟨k, hk, hnone⟩ := h
  have hany : (r.headers.any fun h => k.1 h.key.flatten) = false := by simpa using hnone
  rw [called, hk]
  simp only [hany]
  rfl

theorem called_keeps (h : ¬m.AddsRealIp r) : m.called r = m.generators.map Prod.fst := by
  unfold called
  split
  · rfl
  · next k hk =>
    refine if_pos (Bool.not_eq_false _ ▸ fun hany => ?_)
    exact h ⟨k, hk, by simpa using hany⟩

theorem demand_adds (h : m.AddsRealIp r) : m.demand r = REALIPLEN + needed m.generators := by
  rw [demand, called_adds h, List.map_cons, List.sum_cons]
  rfl

theorem demand_keeps (h : ¬m.AddsRealIp r) : m.demand r = needed m.generators := by
  rw [demand, called_keeps h]
  rfl

theorem demand_le_iff : m.demand r ≤ TBuf.size ↔ m.Fits r := by
  obtain ⟨hall, hrest⟩ := needed_le m.nodup
  have hport : PORTLEN < REALIPLEN := by decide
  by_cases hip : m.AddsRealIp r
  · rw [demand_adds hip]
    by_cases hmem : .realIp ∈ m.generators.map Prod.fst
    · have hneeded : REALIPLEN ≤ needed m.generators := le_needed hmem
      refine iff_of_false ?_ fun h => h ⟨hip, hmem⟩
      simp only [TBuf.size, REALIPLEN, STARTTIMELEN, REQIDLEN, PORTLEN, UI64LEN] at hneeded ⊢
      omega
    · have hneeded := hrest hmem
      refine iff_of_true ?_ fun h => hmem h.2
      rw [TBuf.size]
      omega
  · rw [demand_keeps hip]
    refine iff_of_true ?_ fun h => hip h.1
    rw [TBuf.size]
    omega

end TModule

/-- The last range ends behind the others. -/
theorem ranges_inside_iff (buf : TBuf) (lens : List Nat) (hbuf : buf.used ≤ TBuf.size) :
    (∀ range ∈ buf.ranges lens, range.2 ≤ TBuf.size) ↔ buf.used + lens.sum ≤ TBuf.size := by
  induction lens generalizing buf with
  | nil => simpa [TBuf.ranges] using hbuf
  | cons len lens ih =>
    rw [TBuf.ranges, List.forall_mem_cons, List.sum_cons, ← Nat.add_assoc]
    by_cases hlen : buf.used + len ≤ TBuf.size
    · rw [ih { used := buf.used + len } hlen]
      exact and_iff_right hlen
    · exact iff_of_false (fun h => hlen h.1) (by omega)

namespace TModule

variable (m : TModule) (p : TParams) (r : TRequest)

theorem doRun_isSome : (m.doRun p r).isSome ↔ m.demand r ≤ TBuf.size := by
  by_cases hip : m.AddsRealIp r
  · obtain ⟨headers, hkeep⟩ := keepHeader_adds p r hip
    rw [doRun, hkeep, demand_adds hip]
    simp only [Option.bind_some, Option.isSome_map]
    exact applyGenerators_isSome p _ (by decide)
  · rw [doRun, keepHeader_keeps p r hip, demand_keeps hip]
    simp only [Option.bind_some, Option.isSome_map]
    rw [applyGenerators_isSome p _ (Nat.zero_le _), Nat.zero_add]

/-- What is requested of the buffer fits into it, is handed out inside of it, and passes the
assertion, exactly if not two addresses are generated. -/
theorem buffer_iff :
    (m.demand r ≤ TBuf.size ↔ m.Fits r) ∧
      ((∀ range ∈ TBuf.ranges {} ((m.called r).map IHdrGen.len), range.2 ≤ TBuf.size) ↔ m.Fits r) ∧
      ((m.doRun p r).isSome ↔ m.Fits r) := by
  refine ⟨demand_le_iff, ?_, (m.doRun_isSome p r).trans demand_le_iff⟩
  rw [ranges_inside_iff {} _ (Nat.zero_le _), Nat.zero_add]
  exact demand_le_iff

/-- Regular expressions that accept themselves. -/
def literalParams : TModuleParams where
  fsm regexp := .ok fun key => key == regexp
  mustLoad _ := .ok ()

/-- Both addresses are configured, and the request has no header. The second address is put behind
the buffer. -/
theorem buffer_two_addresses :
    (parse literalParams [("realip", ascii "X-Real-Ip"), ("keep_realip", ascii "X-Forwarded-For-Y"),
        ("proxy", [])]).toOption.map (fun m => (m.demand { request := [ascii "GET / HTTP/1.1"] },
      TBuf.ranges {} ((m.called { request := [ascii "GET / HTTP/1.1"] }).map IHdrGen.len),
      (m.doRun ⟨ascii "127.0.0.1", 1, 2⟩ { request := [ascii "GET / HTTP/1.1"] }).isSome)) =
    some (512, [(0, 256), (256, 512)], false) ∧ TBuf.size = 337 := by
  decide +kernel

end TModule

end Headers

end Balancer
