import Balancer.Theory.LengthPrefix
import Balancer.Verify.Frames
import Balancer.Verify.Rebuild
import Balancer.Modules.Spdy.Reply

/-!
# Headers that are read as they were saved

`SaveHeaders` writes a name/value block, and `readBlock` is the part of `THeadersBlock::Parse` that
takes such a block apart: a count, and for each field two strings behind their lengths. Counts and
lengths are cut to 16 bits, and nothing else is lost: the headers, the status and the version come
back exactly if the numbers fit (`saved_block_iff`).
-/

namespace Balancer.Spdy

open BlockIO TReader LengthPrefix
open ParseHttpRequest (isHdelim)
open Http11 (ascii)

variable {σ : Type} [IIoInput σ] {it : TStreamIterator σ} {xs : List UInt8} {f : Option TException}

/-! ### The grammar of `THeadersBlock::Parse` -/

/-- The strings that the loop of `Parse` reads. -/
def readFields : Nat → TReader σ (List (TChunkList × TChunkList))
  | 0 => pure []
  | fields + 1 => do
    let key ← readString
    let value ← readString
    return (key, value) :: (← readFields fields)

def readBlock : TReader σ (List (TChunkList × TChunkList)) := do
  let fields ← readToken 2
  readFields fields

/-- The loop of `Parse` reads the fields of the block, and puts each where it belongs. -/
theorem parseFields_eq (fields : Nat) (st : THeadersBlock.Fields) (it : TStreamIterator σ) :
    (THeadersBlock.parseFields fields st).apply it =
      ((readFields fields).apply it).map
        (Except.map fun ps => ps.foldl (fun st p => THeadersBlock.parseField st p.1 p.2) st)
          id := by
  induction fields generalizing st it with
  | zero => rfl
  | succ fields ih =>
    simp only [THeadersBlock.parseFields, readFields, apply_bind]
    rcases readString.apply it with ⟨e | key, it₁⟩
    · rfl
    · simp only
      rcases readString.apply it₁ with ⟨e | value, it₂⟩
      · rfl
      · simp only [ih]
        rcases (readFields fields).apply it₂ with ⟨e | ps, it₃⟩ <;> rfl

/-! ### Readers and decoders -/

/-- The words in front of strings. -/
def ui16 : Word UInt8 where
  width := 2
  bound := 2 ^ 16
  bound_pos := by decide
  write := saveUi16
  read := inetToHost
  length_write _ := rfl
  read_write n := by
    simp only [inetToHost, saveUi16, List.foldl_cons, List.foldl_nil, UInt8.toNat_ofNat']
    omega

/-- On an iterator that holds `xs`, a reader does what a decoder does with `xs`: it returns what
`view` takes to the decoded value and leaves the iterator where the decoder stops, or it throws. -/
def Decodes {α γ : Type} (x : TReader σ α) (view : α → γ) (d : Option (γ × List UInt8))
    (it : TStreamIterator σ) (f : Option TException) : Prop :=
  match d with
  | some (c, ys) => ∃ a it', x.apply it = (.ok a, it') ∧ view a = c ∧ it'.Holds ys f
  | none => x.Throws it

section

variable {α β γ δ : Type} {x : TReader σ α} {view : α → γ} {d : Option (γ × List UInt8)}

theorem Decodes.bind (h : Decodes x view d it f) {g : α → TReader σ β} {view' : β → δ}
    {d' : γ × List UInt8 → Option (δ × List UInt8)}
    (hg : ∀ a it' ys, it'.Holds ys f → Decodes (g a) view' (d' (view a, ys)) it' f) :
    Decodes (x >>= g) view' (d.bind d') it f := by
  rcases d with - | ⟨c, ys⟩
  · obtain ⟨e, it', hx⟩ := h
    exact ⟨e, it', by rw [apply_bind, hx]⟩
  · obtain ⟨a, it', hx, rfl, H⟩ := h
    have hga := hg a it' ys H
    rw [Option.bind_some]
    rcases hd : d' (view a, ys) with - | ⟨c', zs⟩
    · rw [hd] at hga
      obtain ⟨e, it'', hy⟩ := hga
      exact ⟨e, it'', by rw [apply_bind, hx]; exact hy⟩
    · rw [hd] at hga
      obtain ⟨b, it'', hy, hb, H'⟩ := hga
      exact ⟨b, it'', by rw [apply_bind, hx]; exact hy, hb, H'⟩

theorem Decodes.map (h : Decodes x view d it f) {g : α → β} {view' : β → δ}
    {k : γ × List UInt8 → δ × List UInt8} (hk : ∀ a ys, k (view a, ys) = (view' (g a), ys)) :
    Decodes (x >>= fun a => pure (g a)) view' (d.map k) it f := by
  rcases d with - | ⟨c, ys⟩
  · obtain ⟨e, it', hx⟩ := h
    exact ⟨e, it', by rw [apply_bind, hx]⟩
  · obtain ⟨a, it', hx, rfl, H⟩ := h
    rw [Option.map_some, hk]
    exact ⟨g a, it', by rw [apply_bind, hx]; rfl, rfl, H⟩

/-- A reader finds a value at the end of which `ys` is left exactly if the decoder does. -/
theorem Decodes.iff (h : Decodes x view d it f) (c : γ) (ys : List UInt8) :
    (∃ a it', x.apply it = (.ok a, it') ∧ view a = c ∧ it'.Holds ys f) ↔ d = some (c, ys) := by
  constructor
  · rintro ⟨a, it', hx, rfl, H⟩
    rcases d with - | ⟨c', zs⟩
    · obtain ⟨e, it'', hx'⟩ := h
      rw [hx] at hx'
      cases hx'
    · obtain ⟨b, it'', hx', rfl, H'⟩ := h
      rw [hx] at hx'
      cases hx'
      rw [H.unique H']
  · rintro rfl
    exact h

end

theorem readToken_decodes (H : it.Holds xs f) :
    Decodes (readToken 2) id (decodeNat ui16 xs) it f := by
  have hr := readToken_holds H 2
  unfold decodeNat
  show Decodes _ _ (if 2 ≤ xs.length then _ else _) _ _
  split at hr
  · next h =>
    rw [if_pos h]
    obtain ⟨it', hx, H'⟩ := hr
    exact ⟨_, it', hx, rfl, H'⟩
  · next h =>
    rw [if_neg h]
    exact hr

theorem readString_decodes (H : it.Holds xs f) :
    Decodes readString List.flatten (decodeString ui16 xs) it f := by
  apply (readToken_decodes H).bind
  intro len it' ys H'
  have hr := H'.readList len
  unfold takeString
  split at hr
  · next h =>
    rw [id_eq, if_pos h]
    exact hr
  · next h =>
    rw [id_eq, if_neg h]
    exact hr

/-- The bytes of the strings that were read. -/
def flatFields (ps : List (TChunkList × TChunkList)) : List (List UInt8 × List UInt8) :=
  ps.map fun p => (p.1.flatten, p.2.flatten)

theorem readFields_decodes (fields : Nat) (H : it.Holds xs f) :
    Decodes (readFields fields) flatFields (decodeFields ui16 fields xs) it f := by
  induction fields generalizing it xs with
  | zero => exact ⟨[], it, rfl, rfl, H⟩
  | succ fields ih =>
    have hstep : decodeFields ui16 (fields + 1) xs =
        (decodeString ui16 xs).bind fun p => (decodeString ui16 p.2).bind fun q =>
          (decodeFields ui16 fields q.2).map fun r => ((p.1, q.1) :: r.1, r.2) := by
      rw [decodeFields, decodeField]
      rcases decodeString ui16 xs with - | p
      · rfl
      · simp only [Option.bind_some]
        rcases decodeString ui16 p.2 with - | q <;> rfl
    rw [hstep, readFields]
    apply (readString_decodes H).bind
    intro key it₁ ys H₁
    apply (readString_decodes H₁).bind
    intro value it₂ zs H₂
    exact (ih H₂).map fun ps us => rfl

theorem readBlock_decodes (H : it.Holds xs f) :
    Decodes readBlock flatFields (decodeBlock ui16 xs) it f := by
  apply (readToken_decodes H).bind
  intro fields it' ys H'
  exact readFields_decodes fields H'

/-! ### What is saved -/

/-- The fields of a response: its headers under keys in lower case, the status and the version. -/
def savedFields (order : EArgumentOrder) (r : FlatRequest) : List (List UInt8 × List UInt8) :=
  r.headers.map (fun h => (h.1.map Http11.lower, h.2)) ++
    order.evaluated (ascii "status", r.request.drop 9) (ascii "version", r.request.take 8)

theorem splitRequest_flatten (req : TChunkList) :
    (splitRequest req).2.1.flatten = req.flatten.drop 9 ∧
      (splitRequest req).2.2.flatten = req.flatten.take 8 := by
  simp [splitRequest, List.drop_drop]

theorem saveHeaders_eq (order : EArgumentOrder) (r : TRequest) :
    (saveHeaders order r).1 = encodeBlock ui16 (savedFields order r.flat) := by
  obtain ⟨hstatus, hversion⟩ := splitRequest_flatten r.request
  have hfield : ∀ h : THeader, saveUi16 h.key.fullLength ++ h.key.flatten.map Http11.lower ++
      saveUi16 h.value.fullLength ++ h.value.flatten =
        encodeField ui16 (h.key.flatten.map Http11.lower, h.value.flatten) := by
    intro h
    simp only [TChunkList.fullLength_eq, encodeField, encodeString, List.length_map,
      List.append_assoc]
    rfl
  have hnames : (ascii "status").map Http11.lower = ascii "status" ∧
      (ascii "version").map Http11.lower = ascii "version" := by
    decide +kernel
  cases order <;>
  · simp only [saveHeaders, splitHeaders, EArgumentOrder.evaluated, hfield, encodeBlock,
      savedFields, TRequest.flat, List.length_append, List.length_map, List.flatMap_append,
      List.flatMap_map, List.flatMap_cons, List.flatMap_nil, List.flatten_singleton, hstatus,
      hversion, hnames.1, hnames.2]
    rfl

/-- The count and all lengths have room in 16 bits. -/
def BlockFits (r : TRequest) : Prop :=
  r.headers.length + 2 < 2 ^ 16 ∧
    (∀ h ∈ r.headers, h.key.fullLength < 2 ^ 16 ∧ h.value.fullLength < 2 ^ 16) ∧
    r.request.fullLength < 2 ^ 16 + 9

instance (r : TRequest) : Decidable (BlockFits r) := inferInstanceAs (Decidable (_ ∧ _))

theorem blockFits_iff (order : EArgumentOrder) (r : TRequest) :
    BlockFits r ↔ (savedFields order r.flat).length < ui16.bound ∧
      ∀ p ∈ savedFields order r.flat, FieldFits ui16 p := by
  have hbound : ui16.bound = 2 ^ 16 := rfl
  have hstatus : FieldFits ui16 (ascii "status", r.request.flatten.drop 9) ↔
      r.request.flatten.length < 2 ^ 16 + 9 := by
    have : (ascii "status").length = 6 := by decide +kernel
    simp only [FieldFits, hbound, List.length_drop, this]
    omega
  have hversion : FieldFits ui16 (ascii "version", r.request.flatten.take 8) := by
    have : (ascii "version").length = 7 := by decide +kernel
    simp only [FieldFits, hbound, List.length_take, this]
    omega
  have hheaders : (∀ p ∈ r.headers.map fun h => (h.key.flatten.map Http11.lower, h.value.flatten),
      FieldFits ui16 p) ↔ ∀ h ∈ r.headers, h.key.fullLength < 2 ^ 16 ∧
      h.value.fullLength < 2 ^ 16 := by
    simp only [List.forall_mem_map, FieldFits, hbound, List.length_map, TChunkList.fullLength_eq]
  cases order <;>
    simp only [BlockFits, savedFields, EArgumentOrder.evaluated, TRequest.flat, List.map_map,
      Function.comp_def, List.length_append, List.length_map, List.length_cons, List.length_nil,
      List.forall_mem_append, List.forall_mem_cons, List.not_mem_nil, false_implies, implies_true,
      hheaders, hstatus, hversion, hbound, TChunkList.fullLength_eq, and_true, true_and,
      Nat.reduceAdd]

/-- The block of a response is read back, in any cut and before any bytes, as the headers with keys
in lower case, the status and the version, and to its end, exactly if the number of fields and all
lengths are less than 2^16. -/
theorem saved_block_iff (order : EArgumentOrder) (r : TRequest)
    (H : it.Holds ((saveHeaders order r).1 ++ xs) f) :
    (∃ fields it', readBlock.apply it = (.ok fields, it') ∧
      flatFields fields = savedFields order r.flat ∧ it'.Holds xs f) ↔ BlockFits r := by
  rw [saveHeaders_eq] at H
  rw [(readBlock_decodes H).iff, decodeBlock_encodeBlock_iff, ← blockFits_iff]

/-- A response with the header `Age: 7`. -/
def agedResponse : TRequest := ⟨[ascii "HTTP/1.1 ", ascii "200 Ok"], [⟨[ascii "Age"], [ascii "7"]⟩]⟩

/-- The block comes in two lists and before another byte. -/
theorem saved_block_two :
    ∃ fields it', readBlock.apply
        (⟨⟨[[(saveHeaders .rightToLeft agedResponse).1.take 9],
          [(saveHeaders .rightToLeft agedResponse).1.drop 9, [0]]], none⟩, []⟩ :
          TStreamIterator TScript) = (.ok fields, it') ∧
      flatFields fields = [(ascii "age", ascii "7"), (ascii "version", ascii "HTTP/1.1"),
        (ascii "status", ascii "200 Ok")] ∧
      it'.Holds [0] none :=
  (saved_block_iff .rightToLeft agedResponse
    (.of_yields (Script.yields (by decide +kernel) none))).2 (by decide +kernel)

/-- A value of which only the lengths are left: the block of the response starts with another
one. -/
theorem saveHeaders_zeros (order : EArgumentOrder) {r : TRequest} {start zs : List UInt8}
    (hzs : (List.replicate 8 0 ++ zs).length = 2 ^ 16)
    (hr : r.flat = ⟨start, [(ascii "k", List.replicate 8 0 ++ zs)]⟩) :
    ∃ ys, (saveHeaders order r).1 = encodeBlock ui16 [(ascii "k", []), ([], []), ([], [])] ++
      ys := by
  have hkey : (ascii "k").map Http11.lower = ascii "k" := by decide +kernel
  refine ⟨zs ++ (order.evaluated (ascii "status", start.drop 9)
    (ascii "version", start.take 8)).flatMap (encodeField ui16), ?_⟩
  rw [saveHeaders_eq, hr]
  cases order <;>
  · simp only [savedFields, EArgumentOrder.evaluated, List.map_cons, List.map_nil, hkey,
      List.cons_append, List.nil_append, encodeBlock, List.flatMap_cons, List.flatMap_nil,
      encodeField, encodeString, hzs, List.append_nil, List.append_assoc]
    rfl

theorem parseChunk_of_run {head tail : List UInt8} {req : FlatRequest}
    (h : ({} : FlatState).run head = .done req tail) :
    ∃ u c, ({} : TPushParseContext).parseChunk [head] = (.ok (true, u), c) ∧
      c.ctx.request.flat = req := by
  have hx := TPushParseContext.InHead.parseChunk (c := {}) ⟨rfl, rfl, Ready.init⟩ [head]
  rw [List.flatten_singleton, h] at hx
  obtain ⟨u, hu, -, hreq, -⟩ := hx
  exact ⟨u, _, Prod.ext hu rfl, hreq⟩

/-- A response with one header is accepted, however long its value is. -/
theorem parseChunk_single (value : List UInt8) (htext : ∀ b ∈ value, Http11.isText b)
    (hhead : ∀ b ∈ value.head?, ¬isHdelim b) :
    ∃ head u c, ({} : TPushParseContext).parseChunk head = (.ok (true, u), c) ∧
      c.ctx.request.flat = ⟨ascii "HTTP/1.1 200 Ok", [(ascii "k", value)]⟩ := by
  have hblank : ∀ b ∈ value.head?, ¬Http11.isBlank b :=
    fun b hb h => hhead b hb (by rw [isHdelim_eq, h]; rfl)
  have hdrop : value.dropWhile isHdelim = value := by
    cases value with
    | nil => rfl
    | cons b value => exact List.dropWhile_cons_of_neg (hhead b rfl)
  have hrun := FieldMessage.run_bytes
    { start := ascii "HTTP/1.1 200 Ok"
      lines := [⟨ascii "k", [Http11.SP],
        value, by decide +kernel, by decide +kernel, by decide +kernel, htext, hblank⟩]
      start_ne := by decide +kernel
      start_text := by decide +kernel } []
  simp only [List.append_nil, List.map_cons, List.map_nil, FieldLine.parsed, hdrop] at hrun
  obtain ⟨u, c, hx⟩ := parseChunk_of_run hrun
  exact ⟨_, u, c, hx⟩

/-- A header with a value of 2^16 zero bytes is accepted, and its block is read as a header without
a value and two fields without names. -/
theorem saved_block_truncated :
    ∃ (head u : TChunkList) (c : TPushParseContext),
      ({} : TPushParseContext).parseChunk head = (.ok (true, u), c) ∧
      c.ctx.request.flat = ⟨ascii "HTTP/1.1 200 Ok", [(ascii "k", List.replicate (2 ^ 16) 0)]⟩ ∧
      ∀ order, ∃ fields it', readBlock.apply
          (⟨⟨[[(saveHeaders order c.ctx.request).1]], none⟩, []⟩ : TStreamIterator TScript) =
            (.ok fields, it') ∧
        flatFields fields = [(ascii "k", []), ([], []), ([], [])] := by
  have hzs : List.replicate 8 0 ++ List.replicate (2 ^ 16 - 8) (0 : UInt8) =
      List.replicate (2 ^ 16) 0 :=
    List.replicate_append_replicate
  obtain ⟨head, u, c, hparse, hflat⟩ := parseChunk_single (List.replicate (2 ^ 16) 0)
    (fun b hb => by rw [List.eq_of_mem_replicate hb]; decide)
    (fun b hb => by rw [List.eq_of_mem_replicate (List.mem_of_mem_head? hb)]; decide)
  refine ⟨head, u, c, hparse, hflat, fun order => ?_⟩
  rw [← hzs] at hflat
  obtain ⟨ys, hys⟩ := saveHeaders_zeros order (by rw [hzs, List.length_replicate]) hflat
  have hne : (saveHeaders order c.ctx.request).1 ≠ [] := by
    rw [hys]
    exact List.cons_ne_nil _ _
  have H : (⟨⟨[[(saveHeaders order c.ctx.request).1]], none⟩, []⟩ :
      TStreamIterator TScript).Holds _ none :=
    .of_yields (Script.yields (by simp [Proper, hne]) none)
  rw [List.flatten_singleton, List.flatten_singleton] at H
  have hdecode : decodeBlock ui16 (saveHeaders order c.ctx.request).1 =
      some ([(ascii "k", []), ([], []), ([], [])], ys) := by
    rw [hys, decodeBlock_encodeBlock_iff]
    decide +kernel
  obtain ⟨fields, it', hread, hfields, -⟩ := ((readBlock_decodes H).iff _ ys).2 hdecode
  exact ⟨fields, it', hread, hfields⟩

end Balancer.Spdy
