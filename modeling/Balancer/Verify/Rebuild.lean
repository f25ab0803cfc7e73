import Balancer.Verify.HeadersBlock

/-!
# Heads that are parsed, built and parsed again

`TRequest::BuildTo` is a right inverse of the parser on everything that the parser can produce
(`reparsed`): what it produced is well formed, and `TRequest.run_buildTo` reads well-formed requests
back. It is not a left inverse on messages: the delimiter of a header takes every blank and colon
that follows the first one, so a value that starts with a colon loses its front
(`FieldMessage.values_exact_iff`).
-/

namespace Balancer

open BlockIO ParseHttpRequest
open Http11 (ascii isText isBlank)

/-! ### Parsing what was built -/

/-- Whatever was parsed, from any cut of any bytes: the head that `BuildTo` writes for it, with any
body behind it and in any cut, is parsed as the same request line and the same headers, and leaves
the body. -/
theorem reparsed {ls : List TChunkList} {r : TRequest} {tail : List UInt8}
    (h : ({} : TRequestParseContextHard).parseLists ls = .ok (some (r.flat, tail))) (b : List UInt8)
    {ls' : List TChunkList} (hls' : bytesOf ls' = (r.buildTo []).flatten ++ b) :
    ({} : TRequestParseContextHard).parseLists ls' = .ok (some (r.flat, b)) := by
  rw [Ready.init.parseLists rfl, FlatRun.outcome_done] at h ⊢
  rw [hls']
  exact TRequest.run_buildTo (FlatState.parsing_init.run_wf h) b

/-- An empty value, and one with blanks and colons inside and a blank at its end. -/
theorem reparsed_values :
    ({} : TRequestParseContextHard).parseLists
        [[ascii "A\r\nk:"], [ascii " \r\nl: a: ", ascii " b \r\n\r", [], ascii "\nxy"]] =
      .ok (some (⟨ascii "A", [(ascii "k", []), (ascii "l", ascii "a:  b ")]⟩, ascii "xy")) := by
  have h : ({} : TRequestParseContextHard).parseLists [[ascii "A\r\nk \r\nl:a:  b \r\n\r\n"]] =
      .ok (some ((⟨[ascii "A"], [⟨[ascii "k"], []⟩, ⟨[ascii "l"], [ascii "a:  b "]⟩]⟩ :
        TRequest).flat, [])) := by
    decide +kernel
  exact reparsed h (ascii "xy") (by decide +kernel)

/-! ### Values that are forwarded -/

/-- A header line: a key, a colon, blanks and a value that starts with the first byte after the
blanks. -/
structure FieldLine where
  key : List UInt8
  blanks : List UInt8
  value : List UInt8
  key_ne : key ≠ []
  key_text : ∀ b ∈ key, isText b ∧ ¬isBlank b ∧ b ≠ COLON
  blanks_blank : ∀ b ∈ blanks, isBlank b
  value_text : ∀ b ∈ value, isText b
  value_head : ∀ b ∈ value.head?, ¬isBlank b

/-- A head that consists of such lines. -/
structure FieldMessage where
  start : List UInt8
  lines : List FieldLine
  start_ne : start ≠ []
  start_text : ∀ b ∈ start, isText b

theorem isHdelim_eq (b : UInt8) : isHdelim b = (isBlank b || b == COLON) := by
  rfl

namespace FieldLine

def bytes (l : FieldLine) : List UInt8 := l.key ++ COLON :: l.blanks ++ l.value ++ CRLF

def field (l : FieldLine) : List UInt8 × List UInt8 := (l.key, l.value)

/-- What the parser leaves of the value. -/
def parsed (l : FieldLine) : List UInt8 × List UInt8 := (l.key, l.value.dropWhile isHdelim)

def StartsWithColon (l : FieldLine) : Prop := l.value.head? = some COLON

instance (l : FieldLine) : Decidable l.StartsWithColon := by
  unfold StartsWithColon; infer_instance

/-- The line as the parser takes it apart. -/
def headerLine (l : FieldLine) : HeaderLine where
  key := l.key
  delim := COLON :: l.blanks ++ l.value.takeWhile isHdelim
  value := l.value.dropWhile isHdelim
  key_ne := l.key_ne
  key_hchar b hb := by
    obtain ⟨ht, hb, hc⟩ := l.key_text b hb
    have hd : isHdelim b = false := by simp [isHdelim_eq, hb, hc]
    exact Bool.and_eq_true_iff.2 ⟨ht, by rw [hd]; rfl⟩
  delim_ne := by simp
  delim_hdelim := List.forall_mem_append.2 ⟨List.forall_mem_cons.2 ⟨rfl, fun b hb => by
      rw [isHdelim_eq, l.blanks_blank b hb]; rfl⟩, List.all_eq_true.1 List.all_takeWhile⟩
  value_char b hb := l.value_text b ((List.dropWhile_sublist _).subset hb)
  value_head := dropWhile_head

theorem headerLine_bytes (l : FieldLine) : l.headerLine.bytes = l.bytes := by
  have h : l.value.takeWhile isHdelim ++ l.value.dropWhile isHdelim = l.value :=
    List.takeWhile_append_dropWhile
  simp only [HeaderLine.bytes, headerLine, bytes, List.append_assoc, List.cons_append]
  rw [← List.append_assoc (l.value.takeWhile isHdelim), h]

theorem parsed_eq_iff (l : FieldLine) : l.parsed = l.field ↔ ¬l.StartsWithColon := by
  have hd : l.value.dropWhile isHdelim = l.value ↔ ¬l.StartsWithColon := by
    unfold StartsWithColon
    cases hv : l.value with
    | nil => simp
    | cons b bs =>
      have hb := l.value_head b (by rw [hv]; rfl)
      rw [List.dropWhile_eq_self_iff]
      simp [isHdelim_eq, hb]
  rw [← hd]
  simp [parsed, field]

/-- The parser only takes bytes away. -/
theorem parsed_length_le (l : FieldLine) :
    (builtHeader l.parsed).length ≤ (builtHeader l.field).length := by
  have := (List.dropWhile_sublist isHdelim (l := l.value)).length_le
  simp only [builtHeader, parsed, field, List.length_append]
  omega

theorem builtHeader_parsed_iff (l : FieldLine) :
    builtHeader l.parsed = builtHeader l.field ↔ l.parsed = l.field := by
  constructor
  · intro h
    simp only [builtHeader, parsed, field, List.append_assoc, List.append_cancel_left_eq,
      List.append_cancel_right_eq] at h
    simp [parsed, field, h]
  · exact congrArg builtHeader

/-- Since no line gets longer, heads of the same bytes have the same lines. -/
theorem flatMap_parsed_iff (ls : List FieldLine) :
    ls.flatMap (builtHeader ∘ parsed) = ls.flatMap (builtHeader ∘ field) ↔
      ∀ l ∈ ls, l.parsed = l.field := by
  have hle : ∀ ls : List FieldLine,
      (ls.flatMap (builtHeader ∘ parsed)).length ≤ (ls.flatMap (builtHeader ∘ field)).length := by
    intro ls
    induction ls with
    | nil => exact Nat.le_refl _
    | cons l ls ih =>
      simp only [List.flatMap_cons, List.length_append]
      exact Nat.add_le_add l.parsed_length_le ih
  induction ls with
  | nil => simp
  | cons l ls ih =>
    rw [List.flatMap_cons, List.flatMap_cons, List.forall_mem_cons, ← builtHeader_parsed_iff]
    refine Iff.trans ?_ (and_congr_right fun _ => ih)
    constructor
    · intro h
      have hlen := congrArg List.length h
      simp only [List.length_append] at hlen
      have h1 : (builtHeader l.parsed).length ≤ (builtHeader l.field).length := l.parsed_length_le
      have h2 := hle ls
      exact List.append_inj h (by simp only [Function.comp] at hlen h2 ⊢; omega)
    · rintro ⟨h1, h2⟩
      rw [h2]
      exact congrArg (· ++ _) h1

end FieldLine

namespace FieldMessage

def bytes (m : FieldMessage) : List UInt8 :=
  m.start ++ CRLF ++ m.lines.flatMap FieldLine.bytes ++ CRLF

/-- The request line, the keys and the values that were written. -/
def written (m : FieldMessage) : FlatRequest := ⟨m.start, m.lines.map FieldLine.field⟩

theorem run_bytes (m : FieldMessage) (tail : List UInt8) :
    ({} : FlatState).run (m.bytes ++ tail) =
      .done ⟨m.start, m.lines.map FieldLine.parsed⟩ tail := by
  have hb : m.lines.flatMap FieldLine.bytes =
      (m.lines.map FieldLine.headerLine).flatMap HeaderLine.bytes := by
    rw [List.flatMap_map]
    exact List.flatMap_congr fun l _ => l.headerLine_bytes.symm
  have := FlatState.run_block m.start_ne m.start_text (m.lines.map FieldLine.headerLine) tail
  rw [← hb, List.map_map] at this
  exact this

/-- In any cut, the parser finds the keys and the values that were written, and `BuildTo` writes
them again, exactly if no value starts with a colon. -/
theorem values_exact_iff (m : FieldMessage) (tail : List UInt8) (ls : List TChunkList)
    (hls : bytesOf ls = m.bytes ++ tail) :
    (({} : TRequestParseContextHard).parseLists ls = .ok (some (m.written, tail)) ↔
      ∀ l ∈ m.lines, ¬l.StartsWithColon) ∧
    ∀ (r : TRequest) (rest : List UInt8),
      ({} : TRequestParseContextHard).parseLists ls = .ok (some (r.flat, rest)) →
      ((r.buildTo []).flatten = builtHead m.written [] ↔ ∀ l ∈ m.lines, ¬l.StartsWithColon) := by
  have hiff : (∀ l ∈ m.lines, l.parsed = l.field) ↔ ∀ l ∈ m.lines, ¬l.StartsWithColon :=
    forall₂_congr fun l _ => l.parsed_eq_iff
  rw [Ready.init.parseLists rfl, hls, m.run_bytes tail, FlatRun.outcome]
  refine ⟨?_, fun r rest h => ?_⟩
  · simp only [written, Except.ok.injEq, Option.some.injEq, Prod.mk.injEq, FlatRequest.mk.injEq,
      true_and, and_true, List.map_inj_left]
    exact hiff
  · have hr : r.flat = ⟨m.start, m.lines.map FieldLine.parsed⟩ := by
      injection h with h
      injection h with h
      exact (congrArg Prod.fst h).symm
    rw [TRequest.buildTo_flatten, hr, ← hiff, ← FieldLine.flatMap_parsed_iff]
    simp only [builtHead, written, List.flatMap_map, List.flatten_nil, List.append_nil,
      List.append_cancel_left_eq, List.append_cancel_right_eq]
    rfl

/-- The head `A\r\n`, `k: value\r\n`, `\r\n`. -/
def single (value : List UInt8) (htext : ∀ b ∈ value, isText b)
    (hhead : ∀ b ∈ value.head?, ¬isBlank b) : FieldMessage where
  start := ascii "A"
  lines := [⟨ascii "k", [SP], value, by decide +kernel, by decide +kernel, by decide +kernel, htext,
    hhead⟩]
  start_ne := by decide +kernel
  start_text := by decide +kernel

/-- A colon inside the value stays. -/
theorem values_exact_inside :
    ({} : TRequestParseContextHard).parseLists
      [[ascii "A\r\nk:"], [ascii " x", ascii ":y\r\n\r\n"]] =
      .ok (some (⟨ascii "A", [(ascii "k", ascii "x:y")]⟩, [])) :=
  ((single (ascii "x:y") (by decide +kernel) (by decide +kernel)).values_exact_iff [] _
    (by decide +kernel)).1.2 (by decide +kernel)

/-- The value `:x`, of which the parser leaves `x` and `BuildTo` writes `x`. -/
theorem values_exact_colon :
    (single (ascii ":x") (by decide +kernel) (by decide +kernel)).bytes =
      ascii "A\r\nk: :x\r\n\r\n" ∧
    ({} : TRequestParseContextHard).parseLists [[ascii "A\r\nk: :x\r\n\r\n"]] =
      .ok (some (⟨ascii "A", [(ascii "k", ascii "x")]⟩, [])) ∧
    builtHead ⟨ascii "A", [(ascii "k", ascii "x")]⟩ [] = ascii "A\r\nk: x\r\n\r\n" := by
  decide +kernel

end FieldMessage

end Balancer
