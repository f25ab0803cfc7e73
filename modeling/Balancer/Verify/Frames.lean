import Balancer.Modules.Spdy.Module

/-!
# Where a frame ends

`EndsAt` follows a reader through the bytes that its iterator holds: it throws, or it leaves the
iterator a given number of bytes further. Each kind of frame has such a number (`frameEnd`), and
what is left to ask is when it is the one that the header announces (`frame_length_iff`).
-/

namespace Balancer.Spdy

open BlockIO

variable {σ : Type} [IIoInput σ] {it it' : TStreamIterator σ} {xs : List UInt8}
  {f : Option TException}

/-! ### Readers on the bytes that are left -/

namespace TReader

variable {α β : Type} {x : TReader σ α} {j k : Nat}

def Throws (x : TReader σ α) (it : TStreamIterator σ) : Prop :=
  ∃ e it', x.apply it = (.error e, it')

/-- On an iterator that holds `xs`, the reader throws or takes the first `k` bytes. -/
def EndsAt (x : TReader σ α) (it : TStreamIterator σ) (xs : List UInt8) (f : Option TException)
    (k : Nat) : Prop :=
  x.Throws it ∨ ∃ a it', x.apply it = (.ok a, it') ∧ k ≤ xs.length ∧ it'.Holds (xs.drop k) f

theorem endsAt_pure (H : it.Holds xs f) (a : α) : (pure a : TReader σ α).EndsAt it xs f 0 :=
  .inr ⟨a, it, rfl, Nat.zero_le _, H⟩

/-- Code that does not use the iterator. -/
theorem endsAt_of (H : it.Holds xs f) (r : Except TException α) :
    (of fun it => (r, it) : TReader σ α).EndsAt it xs f 0 := by
  cases r with
  | error e => exact .inl ⟨e, it, rfl⟩
  | ok a => exact .inr ⟨a, it, rfl, Nat.zero_le _, H⟩

theorem EndsAt.bind (h : x.EndsAt it xs f k) {g : α → TReader σ β}
    (hg : ∀ a it', x.apply it = (.ok a, it') → it'.Holds (xs.drop k) f →
      (g a).EndsAt it' (xs.drop k) f j) : (x >>= g).EndsAt it xs f (k + j) := by
  rcases h with ⟨e, it', hx⟩ | ⟨a, it', hx, hk, H⟩
  · exact .inl ⟨e, it', by rw [apply_bind, hx]⟩
  · rcases hg a it' hx H with ⟨e, it'', hy⟩ | ⟨b, it'', hy, hj, H'⟩
    · exact .inl ⟨e, it'', by rw [apply_bind, hx]; exact hy⟩
    · rw [List.length_drop] at hj
      rw [List.drop_drop] at H'
      exact .inr ⟨b, it'', by rw [apply_bind, hx]; exact hy, by omega, H'⟩

/-- What an iterator holds tells where a reader has left it. -/
theorem EndsAt.eq_of_length (h : x.EndsAt it xs f k) (hok : ¬x.Throws it)
    (h' : x.EndsAt it xs f j) : k = j := by
  obtain ⟨a, it', hx, hk, H⟩ := h.resolve_left hok
  obtain ⟨b, it'', hx', hj, H'⟩ := h'.resolve_left hok
  rw [hx] at hx'
  cases hx'
  have hlen := congrArg List.length (H.unique H')
  rw [List.length_drop, List.length_drop] at hlen
  omega

end TReader

open TReader

theorem readList_endsAt (H : it.Holds xs f) (n : Nat) :
    (TReader.of (·.readList n) : TReader σ TChunkList).EndsAt it xs f n := by
  have hr := H.readList n
  split at hr
  · next hn =>
    obtain ⟨l, it', hl, -, H'⟩ := hr
    exact .inr ⟨l, it', hl, hn, H'⟩
  · exact .inl hr

theorem readToken_holds (H : it.Holds xs f) (n : Nat) :
    if n ≤ xs.length then
      ∃ it', (readToken n).apply it = (.ok (inetToHost (xs.take n)), it') ∧ it'.Holds (xs.drop n) f
    else (readToken n).Throws it := by
  have hr := H.read n
  unfold readToken Throws
  simp only [apply_bind, apply_of]
  split at hr
  · next hn =>
    obtain ⟨it', hl, H'⟩ := hr
    rw [if_pos hn, hl]
    exact ⟨it', rfl, H'⟩
  · next hn =>
    obtain ⟨e, it', hl⟩ := hr
    rw [if_neg hn, hl]
    exact ⟨e, it', rfl⟩

theorem readToken_endsAt (H : it.Holds xs f) (n : Nat) : (readToken n).EndsAt it xs f n := by
  have hr := readToken_holds H n
  split at hr
  · next hn =>
    obtain ⟨it', hl, H'⟩ := hr
    exact .inr ⟨_, it', hl, hn, H'⟩
  · exact .inl hr

theorem readToken_ok (H : it.Holds xs f) {n a : Nat} (h : (readToken n).apply it = (.ok a, it')) :
    a = inetToHost (xs.take n) := by
  have hr := readToken_holds H n
  split at hr
  · obtain ⟨it₁, hl, -⟩ := hr
    rw [hl] at h
    cases h
    rfl
  · obtain ⟨e, it₁, hl⟩ := hr
    rw [hl] at h
    cases h

/-! ### Frames -/

/-- The words of a frame header. -/
def field1 (xs : List UInt8) : Nat := inetToHost (xs.take 4)
def field2 (xs : List UInt8) : Nat := inetToHost ((xs.drop 4).take 4)

/-- The header of a control frame, and the length that any frame announces. -/
def frameHeader (xs : List UInt8) : TControlHeader := .ofFields (field1 xs) (field2 xs)

def frameLength (xs : List UInt8) : Nat := field2 xs % 2 ^ 24

def IsControl (xs : List UInt8) (type : Nat) : Prop :=
  field1 xs / 2 ^ 31 ≠ 0 ∧ (frameHeader xs).type = type

instance (xs : List UInt8) (type : Nat) : Decidable (IsControl xs type) := by
  unfold IsControl; infer_instance

/-- The length of the block of a `SYN_STREAM` frame, as a `size_t`. -/
def blockLength (xs : List UInt8) : Nat := (frameLength xs + 2 ^ 64 - 10) % 2 ^ 64

theorem blockLength_of_le (h : 10 ≤ frameLength xs) : blockLength xs = frameLength xs - 10 := by
  have : frameLength xs < 2 ^ 24 := Nat.mod_lt _ (by decide)
  unfold blockLength
  omega

theorem blockLength_of_lt (h : frameLength xs < 10) :
    blockLength xs = frameLength xs + 2 ^ 64 - 10 := by
  unfold blockLength
  omega

/-- The number of bytes that the code for the frame takes, if it does not throw. -/
def frameEnd (xs : List UInt8) : Nat :=
  if IsControl xs SYN_STREAM then 18 + blockLength xs
  else if IsControl xs RST_STREAM then 16
  else 8 + frameLength xs

theorem frameEnd_synStream (h : IsControl xs SYN_STREAM) : frameEnd xs = 18 + blockLength xs :=
  if_pos h

theorem frameEnd_rstStream (h : IsControl xs RST_STREAM) : frameEnd xs = 16 := by
  have hs : ¬IsControl xs SYN_STREAM := fun h' => absurd (h.2.symm.trans h'.2) (by decide)
  rw [frameEnd, if_neg hs, if_pos h]

theorem frameEnd_other (hs : ¬IsControl xs SYN_STREAM) (hr : ¬IsControl xs RST_STREAM) :
    frameEnd xs = 8 + frameLength xs := by
  rw [frameEnd, if_neg hs, if_neg hr]

theorem le_frameEnd (xs : List UInt8) : 8 ≤ frameEnd xs := by
  unfold frameEnd
  split
  · omega
  · split <;> omega

variable (inflate : TChunkList → Except TException TChunkList)

theorem readSynStream_endsAt (H : it.Holds xs f) {ctl : TControlHeader} {n : Nat}
    (hn : (ctl.length + 2 ^ 64 - 10) % 2 ^ 64 = n) :
    (readSynStream inflate ctl).EndsAt it xs f (4 + (4 + (2 + (n + (0 + (0 + 0)))))) := by
  refine (readToken_endsAt H 4).bind fun _ _ _ H => ?_
  refine (readToken_endsAt H 4).bind fun _ _ _ H => ?_
  refine (readToken_endsAt H 2).bind fun _ _ _ H => ?_
  rw [hn]
  refine (readList_endsAt H n).bind fun tmp _ _ H => ?_
  refine (endsAt_of H (inflate tmp)).bind fun block _ _ H => ?_
  exact (endsAt_of H _).bind fun _ _ _ H => endsAt_pure H _

theorem readRstStream_endsAt (H : it.Holds xs f) :
    (readRstStream (σ := σ)).EndsAt it xs f (4 + (4 + 0)) := by
  refine (readToken_endsAt H 4).bind fun _ _ _ H => ?_
  exact (readToken_endsAt H 4).bind fun _ _ _ H => endsAt_pure H _

theorem readData_endsAt (H : it.Holds xs f) (field : Nat) :
    (readData (σ := σ) field).EndsAt it xs f (4 + (inetToHost (xs.take 4) % 2 ^ 24 + 0)) := by
  refine (readToken_endsAt H 4).bind fun field2 it' h H' => ?_
  rw [readToken_ok H h]
  exact (readList_endsAt H' _).bind fun _ _ _ H => endsAt_pure H _

/-- The code for a control frame, after its header. -/
theorem readControl_endsAt (H : it.Holds (xs.drop 8) f) (hc : field1 xs / 2 ^ 31 ≠ 0) :
    (if (frameHeader xs).type = SYN_STREAM then readSynStream inflate (frameHeader xs)
      else if (frameHeader xs).type = RST_STREAM then readRstStream
      else do
        let _tmp ← TReader.of (·.readList (frameHeader xs).length)
        return .other : TReader σ TFrame).EndsAt it (xs.drop 8) f (frameEnd xs - 8) := by
  by_cases hs : (frameHeader xs).type = SYN_STREAM
  · have hend : frameEnd xs - 8 = 4 + (4 + (2 + (blockLength xs + (0 + (0 + 0))))) := by
      rw [frameEnd_synStream ⟨hc, hs⟩]
      omega
    rw [if_pos hs, hend]
    exact readSynStream_endsAt inflate H rfl
  · rw [if_neg hs]
    by_cases hr : (frameHeader xs).type = RST_STREAM
    · have hend : frameEnd xs - 8 = 4 + (4 + 0) := by
        rw [frameEnd_rstStream ⟨hc, hr⟩]
      rw [if_pos hr, hend]
      exact readRstStream_endsAt H
    · have hend : frameEnd xs - 8 = frameLength xs + 0 := by
        rw [frameEnd_other (fun h => hs h.2) fun h => hr h.2]
        omega
      rw [if_neg hr, hend]
      exact (readList_endsAt H _).bind fun _ _ _ H => endsAt_pure H _

/-- Every frame ends where the code for its kind has it. -/
theorem readFrame_endsAt (H : it.Holds xs f) :
    (readFrame inflate).EndsAt it xs f (frameEnd xs) := by
  have hle := le_frameEnd xs
  by_cases hc : field1 xs / 2 ^ 31 ≠ 0
  · have hend : frameEnd xs = 4 + (4 + (frameEnd xs - 8)) := by omega
    rw [hend]
    refine (readToken_endsAt H 4).bind fun field it' h H' => ?_
    rw [readToken_ok H h, if_pos (show inetToHost (xs.take 4) / 2 ^ 31 ≠ 0 from hc)]
    refine (readToken_endsAt H' 4).bind fun field2 it'' h' H'' => ?_
    rw [readToken_ok H' h', List.drop_drop] at *
    exact readControl_endsAt inflate H'' hc
  · have hend : frameEnd xs = 4 + (4 + (frameLength xs + 0)) := by
      rw [frameEnd_other (fun h => hc h.1) fun h => hc h.1]
      omega
    rw [hend]
    refine (readToken_endsAt H 4).bind fun field it' h H' => ?_
    rw [readToken_ok H h, if_neg (show ¬inetToHost (xs.take 4) / 2 ^ 31 ≠ 0 from hc)]
    exact readData_endsAt H' _

/-! ### Frames that end where they announce it -/

theorem bind_readToken {β : Type} (H : it.Holds xs f) {n : Nat} (hn : n ≤ xs.length) :
    ∃ it', it'.Holds (xs.drop n) f ∧ ∀ g : Nat → TReader σ β,
      (readToken n >>= g).apply it = (g (inetToHost (xs.take n))).apply it' := by
  have hr := readToken_holds H n
  rw [if_pos hn] at hr
  obtain ⟨it', hl, H'⟩ := hr
  exact ⟨it', H', fun g => by rw [apply_bind, hl]⟩

/-- The code for an `RST_STREAM` frame needs 16 bytes and nothing else. -/
theorem readFrame_rstStream (H : it.Holds xs f) (hr : IsControl xs RST_STREAM)
    (hx : 16 ≤ xs.length) :
    ∃ it', (readFrame inflate).apply it =
      (.ok (.rstStream (inetToHost ((xs.drop 8).take 4))), it') := by
  obtain ⟨hc, ht⟩ := hr
  obtain ⟨it₁, H₁, h₁⟩ := bind_readToken H (show 4 ≤ xs.length by omega)
  obtain ⟨it₂, H₂, h₂⟩ :=
    bind_readToken H₁ (show 4 ≤ (xs.drop 4).length by rw [List.length_drop]; omega)
  rw [List.drop_drop] at H₂
  obtain ⟨it₃, H₃, h₃⟩ :=
    bind_readToken H₂ (show 4 ≤ (xs.drop 8).length by rw [List.length_drop]; omega)
  rw [List.drop_drop] at H₃
  obtain ⟨it₄, -, h₄⟩ :=
    bind_readToken H₃ (show 4 ≤ (xs.drop 12).length by rw [List.length_drop]; omega)
  have hns : (frameHeader xs).type ≠ SYN_STREAM := by
    rw [ht]
    decide
  refine ⟨it₄, ?_⟩
  rw [readFrame, h₁, if_pos (show inetToHost (xs.take 4) / 2 ^ 31 ≠ 0 from hc), h₂]
  simp only [show TControlHeader.ofFields (inetToHost (xs.take 4))
    (inetToHost ((xs.drop 4).take 4)) = frameHeader xs from rfl]
  rw [if_neg hns, if_pos ht, readRstStream, h₃, h₄, apply_pure]

/-- On any bytes, in any cut and with any ending, the code for a frame of length `n` throws or
leaves the iterator `8 + n` bytes further, exactly if it is no `RST_STREAM` frame of another length
than 8 that was received in full. A `SYN_STREAM` frame of a length below 10 takes 2^64 bytes more,
and where the stream has them it is only as good as that if it throws. -/
theorem frame_length_iff (H : it.Holds xs f) :
    ((IsControl xs SYN_STREAM → 10 ≤ frameLength xs ∨ xs.length < 8 + frameLength xs + 2 ^ 64) →
      ((readFrame inflate).EndsAt it xs f (8 + frameLength xs) ↔
        (IsControl xs RST_STREAM → frameLength xs = 8 ∨ xs.length < 16))) ∧
    (IsControl xs SYN_STREAM → frameLength xs < 10 → 8 + frameLength xs + 2 ^ 64 ≤ xs.length →
      ((readFrame inflate).EndsAt it xs f (8 + frameLength xs) ↔
        (readFrame inflate).Throws it)) := by
  have hends := readFrame_endsAt inflate H
  -- a frame that needs more bytes than there are throws
  have hshort : xs.length < frameEnd xs → (readFrame inflate).Throws it := by
    intro hlt
    by_contra ht
    obtain ⟨a, it', -, hle, -⟩ := hends.resolve_left ht
    omega
  by_cases hs : IsControl xs SYN_STREAM
  · have hr : ¬IsControl xs RST_STREAM := fun h => absurd (hs.2.symm.trans h.2) (by decide)
    have hend := frameEnd_synStream hs
    refine ⟨fun hlen => iff_of_true ?_ fun h => absurd h hr, fun _ hlt _ => ⟨fun h => ?_, .inl⟩⟩
    · rcases Nat.lt_or_ge (frameLength xs) 10 with hlt | hge
      · rw [blockLength_of_lt hlt] at hend
        have hx := (hlen hs).resolve_left (by omega)
        exact .inl (hshort (by omega))
      · rw [blockLength_of_le hge] at hend
        rw [show 8 + frameLength xs = frameEnd xs by omega]
        exact hends
    · by_contra ht
      rw [blockLength_of_lt hlt] at hend
      have := hends.eq_of_length ht h
      omega
  · refine ⟨fun _ => ?_, fun h => absurd h hs⟩
    by_cases hr : IsControl xs RST_STREAM
    · have hend := frameEnd_rstStream hr
      constructor
      · intro h _
        by_contra hne
        obtain ⟨it', hok⟩ := readFrame_rstStream inflate H hr (by omega)
        have ht : ¬(readFrame inflate).Throws it := by
          rintro ⟨e, it'', herr⟩
          cases hok.symm.trans herr
        have := hends.eq_of_length ht h
        omega
      · intro hlen
        rcases hlen hr with h8 | hx
        · rw [show 8 + frameLength xs = frameEnd xs by omega]
          exact hends
        · exact .inl (hshort (by omega))
    · rw [← frameEnd_other hs hr]
      exact iff_of_true hends fun h => absurd h hr

/-- A `DATA` frame with two bytes, in two lists, and the header of the next frame. -/
theorem frame_length_data :
    (readFrame .ok).EndsAt (⟨(⟨[[[0, 0, 0, 1, 0, 0]], [[0, 2, 7], [8, 0, 0, 0, 3]]], none⟩ :
      TScript), []⟩) [0, 0, 0, 1, 0, 0, 0, 2, 7, 8, 0, 0, 0, 3] none 10 := by
  have hls : ∀ l ∈ [[[0, 0, 0, 1, 0, 0]], [[0, 2, 7], [8, 0, 0, 0, 3]]], Proper (α := UInt8) l := by
    decide
  exact ((frame_length_iff .ok (.of_yields (Script.yields hls none))).1
    fun h => absurd h (by decide)).2 fun h => absurd h (by decide)

/-- An `RST_STREAM` frame of length 0: the header of the `DATA` frame after it is taken for its
fields. -/
theorem frame_length_rst :
    frameLength [128, 2, 0, 3, 0, 0, 0, 0, 0, 0, 0, 1, 0, 0, 0, 0] = 0 ∧
    ∃ it', (readFrame .ok).apply
        (⟨(⟨[[[128, 2, 0, 3, 0, 0, 0, 0, 0, 0, 0, 1, 0, 0, 0, 0]]], none⟩ : TScript), []⟩) =
          (.ok (.rstStream 1), it') ∧
      it'.Holds [] none := by
  have hls : ∀ l ∈ [[[128, 2, 0, 3, 0, 0, 0, 0, 0, 0, 0, 1, 0, 0, 0, 0]]],
      Proper (α := UInt8) l := by decide
  have H := TStreamIterator.Holds.of_yields (Script.yields hls (none : Option TException))
  obtain ⟨it', hok⟩ := readFrame_rstStream .ok H (by decide) (by decide)
  refine ⟨by decide, it', hok, ?_⟩
  rcases readFrame_endsAt .ok H with ⟨e, it'', ht⟩ | ⟨a, it'', ha, -, H'⟩
  · cases hok.symm.trans ht
  · cases hok.symm.trans ha
    exact H'

end Balancer.Spdy
