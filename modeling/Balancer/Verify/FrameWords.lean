import Balancer.Modules.Spdy.Output
import Balancer.Verify.Frames

/-!
# Frames that are read as they were saved

The bit fields of a header share their words without overlap, so every field comes back as it is
after it was cut to its width. Identifier, type, version and flags fit; the length is the number of
bytes that follow, and it is cut to 24 bits (`save_read_iff`).
-/

namespace Balancer.Spdy

open BlockIO TReader

variable {σ : Type} [IIoInput σ] {it : TStreamIterator σ} {xs : List UInt8} {f : Option TException}

/-! ### Words -/

@[simp] theorem length_saveUi32 (n : Nat) : (saveUi32 n).length = 4 := rfl

theorem inetToHost_saveUi32 (n : Nat) : inetToHost (saveUi32 n) = n % 2 ^ 32 := by
  simp only [inetToHost, saveUi32, List.foldl_cons, List.foldl_nil, UInt8.toNat_ofNat']
  omega

/-- A word that is read where it was saved. -/
theorem bind_saveUi32 {β : Type} {n : Nat} (H : it.Holds (saveUi32 n ++ xs) f) (hn : n < 2 ^ 32) :
    ∃ it', it'.Holds xs f ∧ ∀ g : Nat → TReader σ β,
      (readToken 4 >>= g).apply it = (g n).apply it' := by
  obtain ⟨it', H', h⟩ := bind_readToken (β := β) H (n := 4) (by simp)
  rw [List.drop_left' (length_saveUi32 n)] at H'
  refine ⟨it', H', fun g => ?_⟩
  rw [h, List.take_left' (length_saveUi32 n), inetToHost_saveUi32, Nat.mod_eq_of_lt hn]

/-! ### Bit fields -/

namespace TControlFields

theorem field1_lt (hdr : TControlFields) : hdr.field1 < 2 ^ 32 := by
  have := Bool.toNat_le hdr.isControl
  unfold field1
  omega

theorem field2_lt (hdr : TControlFields) : hdr.field2 < 2 ^ 32 := by
  unfold field2
  omega

theorem ofFields_fields (hdr : TControlFields) :
    ofFields hdr.field1 hdr.field2 =
      { type := hdr.type % 2 ^ 16
        length := hdr.length % 2 ^ 24
        flags := hdr.flags % 2 ^ 8
        version := hdr.version % 2 ^ 15
        isControl := hdr.isControl } := by
  have hb := Bool.toNat_le hdr.isControl
  have htype : hdr.field1 % 2 ^ 16 = hdr.type % 2 ^ 16 := by
    unfold field1
    omega
  have hversion : hdr.field1 / 2 ^ 16 % 2 ^ 15 = hdr.version % 2 ^ 15 := by
    unfold field1
    omega
  have hcontrol : hdr.field1 / 2 ^ 31 % 2 = hdr.isControl.toNat := by
    unfold field1
    omega
  have hlength : hdr.field2 % 2 ^ 24 = hdr.length % 2 ^ 24 := by
    unfold field2
    omega
  have hflags : hdr.field2 / 2 ^ 24 = hdr.flags % 2 ^ 8 := by
    unfold field2
    omega
  rw [ofFields, TControlHeader.ofFields, htype, hversion, hcontrol, hlength, hflags]
  cases hdr.isControl <;> rfl

/-- A header is read as it was saved, up to the widths of its fields. -/
theorem read_save (hdr : TControlFields) (H : it.Holds (hdr.save.flatten ++ xs) f) :
    ∃ it', it'.Holds xs f ∧
      (readToken 4 >>= read).apply it = (.ok (ofFields hdr.field1 hdr.field2), it') := by
  simp only [save, List.flatten_cons, List.flatten_nil, List.append_nil, List.append_assoc] at H
  obtain ⟨it₁, H₁, h₁⟩ := bind_saveUi32 H hdr.field1_lt
  obtain ⟨it₂, H₂, h₂⟩ := bind_saveUi32 H₁ hdr.field2_lt
  exact ⟨it₂, H₂, by rw [h₁, read, h₂, apply_pure]⟩

end TControlFields

namespace TDataFrame

/-- The code of `Loop` for a `DATA` frame keeps the fields that it uses. -/
theorem readData_eq (field : Nat) (it : TStreamIterator σ) :
    (readData field).apply it =
      ((read field).apply it).map
        (Except.map fun frame => .data frame.streamID frame.data (isFin frame.flags)) id := by
  simp only [readData, read, apply_bind, apply_of]
  rcases (readToken 4).apply it with ⟨e | field2, it₁⟩
  · rfl
  · simp only
    rcases it₁.readList (field2 % 2 ^ 24) with ⟨e | data, it₂⟩ <;> rfl

theorem field1_lt (frame : TDataFrame) : frame.field1 < 2 ^ 32 := by
  have := Bool.toNat_le frame.isControl
  unfold field1
  omega

theorem field2_lt (frame : TDataFrame) : frame.field2 < 2 ^ 32 := by
  unfold field2
  omega

theorem field1_eq (frame : TDataFrame) :
    frame.field1 % 2 ^ 31 = frame.streamID % 2 ^ 31 ∧
      frame.field1 / 2 ^ 31 % 2 = frame.isControl.toNat := by
  have := Bool.toNat_le frame.isControl
  unfold field1
  omega

theorem field2_eq (frame : TDataFrame) :
    frame.field2 % 2 ^ 24 = frame.length % 2 ^ 24 ∧
      frame.field2 / 2 ^ 24 = frame.flags % 2 ^ 8 := by
  unfold field2
  omega

/-- What is read where a frame was saved. -/
theorem read_save (frame : TDataFrame) (H : it.Holds (frame.save.flatten ++ xs) f) {n : Nat}
    (hn : frame.data.fullLength % 2 ^ 24 = n) :
    ∃ data it', it'.Holds ((frame.data.flatten ++ xs).drop n) f ∧
      data.flatten = frame.data.flatten.take n ∧
      (readToken 4 >>= read).apply it =
        (.ok ⟨frame.streamID % 2 ^ 31, frame.isControl, n, frame.flags % 2 ^ 8, data⟩, it') := by
  have hle : n ≤ frame.data.flatten.length := by
    rw [← hn, TChunkList.fullLength_eq]
    exact Nat.mod_le ..
  unfold save at H
  simp only [List.cons_append, List.nil_append, List.flatten_cons, List.append_assoc, hn] at H
  obtain ⟨it₁, H₁, h₁⟩ := bind_saveUi32 H (field1_lt _)
  obtain ⟨it₂, H₂, h₂⟩ := bind_saveUi32 H₁ (field2_lt _)
  have hr := H₂.readList n
  rw [if_pos (hle.trans (by simp))] at hr
  obtain ⟨data, it₃, h₃, hdata, H₃⟩ := hr
  refine ⟨data, it₃, H₃, hdata.trans (List.take_append_of_le_length hle), ?_⟩
  obtain ⟨hid, hcontrol⟩ := field1_eq { frame with length := n }
  obtain ⟨hlength, hflags⟩ := field2_eq { frame with length := n }
  have hmod : n % 2 ^ 24 = n := by
    rw [← hn, Nat.mod_mod]
  rw [hmod] at hlength
  rw [h₁, read, h₂, hid, hcontrol, hlength, hflags, apply_bind, apply_of, h₃]
  cases frame.isControl <;> rfl

end TDataFrame

/-! ### Both kinds of frames -/

theorem sendControl_read {type : Nat} (payload : TChunkList) (htype : type < 2 ^ 16)
    (H : it.Holds ((sendControl type payload).flatten ++ xs) f) :
    ∃ it', it'.Holds (payload.flatten ++ xs) f ∧ (readToken 4 >>= TControlFields.read).apply it =
      (.ok ⟨⟨type, payload.flatten.length % 2 ^ 24, 0⟩, 2, true⟩, it') := by
  rw [sendControl, List.flatten_append, List.append_assoc] at H
  obtain ⟨it', H', h⟩ := TControlFields.read_save _ H
  refine ⟨it', H', h.trans ?_⟩
  rw [TControlFields.ofFields_fields]
  simpa [TControlFields.new, TChunkList.fullLength_eq] using htype

/-- A `DATA` frame is read back, in any cut and before any bytes, with its identifier, flags and
data, exactly if it has less than 2^24 bytes of data; and a control frame with its type and version,
and exactly then with the length of its payload. -/
theorem save_read_iff :
    (∀ (id flags length : Nat) (data : TChunkList), id < 2 ^ 31 → flags < 2 ^ 8 →
      it.Holds ((⟨id, false, length, flags, data⟩ : TDataFrame).save.flatten ++ xs) f →
        ((∃ frame it', (readToken 4 >>= TDataFrame.read).apply it = (.ok frame, it') ∧
          frame.streamID = id ∧
            frame.isControl = false ∧ frame.flags = flags ∧ frame.data.flatten = data.flatten ∧
            it'.Holds xs f) ↔
          data.flatten.length < 2 ^ 24)) ∧
    ∀ (type : Nat) (payload : TChunkList), type < 2 ^ 16 →
      it.Holds ((sendControl type payload).flatten ++ xs) f →
        ∃ hdr it', (readToken 4 >>= TControlFields.read).apply it = (.ok hdr, it') ∧
          it'.Holds (payload.flatten ++ xs) f ∧ hdr.isControl = true ∧ hdr.type = type ∧
          hdr.version = 2 ∧
          (hdr.length = payload.flatten.length ↔ payload.flatten.length < 2 ^ 24) := by
  constructor
  · intro id flags length data hid hflags H
    obtain ⟨data', it', H', hdata, h⟩ := TDataFrame.read_save _ H rfl
    rw [TChunkList.fullLength_eq] at H' hdata h
    simp only [h, Nat.mod_eq_of_lt hid, Nat.mod_eq_of_lt hflags]
    constructor
    · rintro ⟨frame, it₁, heq, -, -, -, hback, -⟩
      cases heq
      have hlen := congrArg List.length (hdata.symm.trans hback)
      rw [List.length_take] at hlen
      have : data.flatten.length % 2 ^ 24 < 2 ^ 24 := Nat.mod_lt _ (by decide)
      omega
    · intro hlt
      rw [Nat.mod_eq_of_lt hlt, List.drop_left] at H'
      rw [Nat.mod_eq_of_lt hlt, List.take_length] at hdata
      exact ⟨_, it', rfl, rfl, rfl, rfl, hdata, H'⟩
  · intro type payload htype H
    obtain ⟨it', H', h⟩ := sendControl_read payload htype H
    refine ⟨_, it', h, H', rfl, rfl, rfl, ?_⟩
    exact Nat.mod_eq_iff_lt (by decide)

/-- A `DATA` frame with two bytes and the flag `FLAG_FIN`, in two lists and before another byte, and
an `RST_STREAM` frame. -/
theorem save_read_two :
    (∃ frame it', (readToken 4 >>= TDataFrame.read).apply
        (⟨⟨[[[0, 0, 0, 5, 1, 0]], [[0, 2, 7], [8, 9]]], none⟩, []⟩ : TStreamIterator TScript) =
          (.ok frame, it') ∧
      frame.streamID = 5 ∧ frame.isControl = false ∧ frame.flags = 1 ∧ frame.data.flatten = [7, 8] ∧
      it'.Holds [9] none) ∧
    ∃ hdr it', (readToken 4 >>= TControlFields.read).apply
        (⟨⟨[sendControl RST_STREAM [saveUi32 5, saveUi32 6]], none⟩,
          []⟩ : TStreamIterator TScript) = (.ok hdr, it') ∧
      it'.Holds ([saveUi32 5, saveUi32 6].flatten ++ []) none ∧ hdr.isControl = true ∧
      hdr.type = RST_STREAM ∧ hdr.version = 2 ∧ (hdr.length = 8 ↔ 8 < 2 ^ 24) := by
  have hdata : ∀ l ∈ [[[0, 0, 0, 5, 1, 0]], [[0, 2, 7], [8, 9]]], Proper (α := UInt8) l := by decide
  have hrst : ∀ l ∈ [sendControl RST_STREAM [saveUi32 5, saveUi32 6]], Proper l := by decide
  exact ⟨(save_read_iff.1 5 1 0 [[7, 8]] (by decide) (by decide)
      (.of_yields (Script.yields hdata none))).2 (by decide),
    save_read_iff.2 RST_STREAM [saveUi32 5, saveUi32 6] (by decide)
      (.of_yields (Script.yields hrst none))⟩

/-- A `DATA` frame whose length does not fit is read as one without data when the 24 bits are all
zero. -/
theorem read_save_eq_nil {c : TChunk} (hc : c.length % 2 ^ 24 = 0) (hne : c ≠ []) :
    ∃ frame it', (readToken 4 >>= TDataFrame.read).apply
        (⟨⟨[(TDataFrame.new 1 [c]).save], none⟩, []⟩ : TStreamIterator TScript) = (.ok frame, it') ∧
      frame.data.flatten = [] ∧ it'.Holds c none := by
  have hproper : ∀ l ∈ [(TDataFrame.new 1 [c]).save], Proper l := by
    rintro l (_ | ⟨_, ⟨⟩⟩)
    refine ⟨List.cons_ne_nil _ _, ?_⟩
    rintro b (_ | ⟨_, _ | ⟨_, _ | ⟨_, ⟨⟩⟩⟩⟩)
    · exact List.cons_ne_nil _ _
    · exact List.cons_ne_nil _ _
    · exact hne
  have H := TStreamIterator.Holds.of_yields (Script.yields hproper none)
  rw [List.flatten_singleton, ← List.append_nil (List.flatten _)] at H
  have hn : (TDataFrame.new 1 [c]).data.fullLength % 2 ^ 24 = 0 := by
    rw [TChunkList.fullLength_eq, TDataFrame.new, List.flatten_singleton, hc]
  obtain ⟨data, it', H', hdata, h⟩ := TDataFrame.read_save _ H hn
  rw [List.append_nil, List.drop_zero, TDataFrame.new, List.flatten_singleton] at H'
  exact ⟨_, it', h, hdata.trans List.take_zero, H'⟩

/-- A `DATA` frame with 2^24 bytes is read as one without data, and its data are left for the next
frames. -/
theorem save_read_truncated :
    ∃ frame it', (readToken 4 >>= TDataFrame.read).apply
        (⟨⟨[(TDataFrame.new 1 [List.replicate (2 ^ 24) 0]).save], none⟩,
          []⟩ : TStreamIterator TScript) = (.ok frame, it') ∧
      frame.data.flatten = [] ∧ it'.Holds (List.replicate (2 ^ 24) 0) none :=
  read_save_eq_nil (by rw [List.length_replicate, Nat.mod_self])
    (List.ne_nil_of_length_pos (by rw [List.length_replicate]; decide))

end Balancer.Spdy
