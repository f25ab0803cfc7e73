import Balancer.Util.Codecs

/-!
# Codes and back

Three bytes are four sextets, and a sextet has bits of two bytes; a block is decoded by its own
(`toChar_sextets₀` and the two behind it), and what is encoded is one block after the other
(`encodeWith_block`). The decoder of hexadecimal comes to its end when the distance is even
(`turns_hexDecode`); when it is odd, the end is stepped over, and the loop goes on behind it.
-/

namespace Balancer

open Runs

theorem forall_byte {p : UInt8 → Prop} (h : ∀ n < 256, p (UInt8.ofNat n)) (c : UInt8) : p c := by
  have hc := h c.toNat c.toNat_lt
  rwa [UInt8.ofNat_toNat] at hc

namespace Base64

/-! ### Sextets -/

section Sextets

variable (a b c : UInt8)

/-- The six bits that the first character of four is written for. -/
def sextet₀ : TInt := (ofUChar a).sshiftRight 2

def sextet₁ : TInt := (ofUChar a <<< 4 &&& 0x30) ||| ((ofUChar b).sshiftRight 4 &&& 0x0f)

def sextet₂ : TInt := (ofUChar b <<< 2 &&& 0x3c) ||| ((ofChar c).sshiftRight 6 &&& 0x03)

def sextet₃ : TInt := ofUChar c &&& 0x3f

theorem sextet₀_lt : (sextet₀ a).toNat < 64 := by
  revert a
  apply forall_byte
  decide +kernel

theorem sextet₁_lt : (sextet₁ a b).toNat < 64 := by
  rw [sextet₁, BitVec.toNat_or, BitVec.toNat_and, BitVec.toNat_and]
  exact Nat.or_lt_two_pow (n := 6) (Nat.and_lt_two_pow _ (by decide))
    (Nat.and_lt_two_pow _ (by decide))

theorem sextet₂_lt : (sextet₂ b c).toNat < 64 := by
  rw [sextet₂, BitVec.toNat_or, BitVec.toNat_and, BitVec.toNat_and]
  exact Nat.or_lt_two_pow (n := 6) (Nat.and_lt_two_pow _ (by decide))
    (Nat.and_lt_two_pow _ (by decide))

theorem sextet₃_lt : (sextet₃ c).toNat < 64 := by
  rw [sextet₃, BitVec.toNat_and]
  exact Nat.and_lt_two_pow (n := 6) _ (by decide)

theorem toChar_or (x y : TInt) : toChar (x ||| y) = toChar x ||| toChar y := by
  rw [toChar, BitVec.setWidth_or]
  rfl

/-- Of the bits that a sextet has of two bytes, those of one come to their place again and those of
the other one are shifted out. -/
theorem toChar_sextets₀ : toChar (sextet₀ a <<< 2 ||| (sextet₁ a b).sshiftRight 4) = a := by
  have hown : toChar (sextet₀ a <<< 2) ||| toChar ((ofUChar a <<< 4 &&& 0x30).sshiftRight 4) =
      a := by
    revert a
    apply forall_byte
    decide +kernel
  have hother : toChar (((ofUChar b).sshiftRight 4 &&& 0x0f).sshiftRight 4) = 0 := by
    revert b
    apply forall_byte
    decide +kernel
  rw [sextet₁, BitVec.sshiftRight_or_distrib, toChar_or, toChar_or, hother, UInt8.or_zero, hown]

theorem toChar_sextets₁ : toChar (sextet₁ a b <<< 4 ||| (sextet₂ b c).sshiftRight 2) = b := by
  have hown : toChar (((ofUChar b).sshiftRight 4 &&& 0x0f) <<< 4) |||
      toChar ((ofUChar b <<< 2 &&& 0x3c).sshiftRight 2) = b := by
    revert b
    apply forall_byte
    decide +kernel
  have hbefore : toChar ((ofUChar a <<< 4 &&& 0x30) <<< 4) = 0 := by
    revert a
    apply forall_byte
    decide +kernel
  have hafter : toChar (((ofChar c).sshiftRight 6 &&& 0x03).sshiftRight 2) = 0 := by
    revert c
    apply forall_byte
    decide +kernel
  rw [sextet₁, sextet₂, BitVec.shiftLeft_or_distrib, BitVec.sshiftRight_or_distrib, toChar_or,
    toChar_or, toChar_or, hbefore, hafter, UInt8.zero_or, UInt8.or_zero, hown]

theorem toChar_sextets₂ : toChar (sextet₂ b c <<< 6 ||| sextet₃ c) = c := by
  have hown : toChar (((ofChar c).sshiftRight 6 &&& 0x03) <<< 6) ||| toChar (sextet₃ c) = c := by
    revert c
    apply forall_byte
    decide +kernel
  have hother : toChar ((ofUChar b <<< 2 &&& 0x3c) <<< 6) = 0 := by
    revert b
    apply forall_byte
    decide +kernel
  rw [sextet₂, BitVec.shiftLeft_or_distrib, toChar_or, toChar_or, hother, UInt8.zero_or, hown]

end Sextets

/-! ### Alphabets -/

/-- The table of `Base64Decode` goes back, and what is filled up with is known as such. -/
structure Alphabet (etab : List UInt8) (last : UInt8) : Prop where
  backward_etab : ∀ i < 64, backward (etab.getD i 0) = BitVec.ofNat 32 i
  isLast_etab : ∀ i < 64, isLast (etab.getD i 0) = false
  backward_last : backward last = 0
  isLast_last : isLast last = true

theorem alphabet_std : Alphabet etabStd 61 :=
  ⟨by decide +kernel, by decide +kernel, by decide, by decide⟩

theorem alphabet_url : Alphabet etabUrl 44 :=
  ⟨by decide +kernel, by decide +kernel, by decide, by decide⟩

variable {etab : List UInt8} {last : UInt8}

theorem Alphabet.backward_lookup (h : Alphabet etab last) {x : TInt} (hx : x.toNat < 64) :
    backward (lookup etab x) = x := by
  rw [lookup, h.backward_etab _ hx, BitVec.ofNat_toNat, BitVec.setWidth_eq]

/-! ### Blocks -/

/-- `encodeImpl` with its alphabet. -/
def encodeWith (etab : List UInt8) (last : UInt8) (s : List UInt8) : List UInt8 :=
  (List.range s.length).flatMap (encodeTurn etab s) ++ encodeRest etab last s

theorem encodeTurn_block (a b c : UInt8) (s : List UInt8) (idx : ℕ) :
    encodeTurn etab (a :: b :: c :: s) (idx + 3) = encodeTurn etab s idx := by
  have hlen : (idx + 3 + 1 < (a :: b :: c :: s).length) = (idx + 1 < s.length) := by
    simp only [List.length_cons, eq_iff_iff]
    omega
  unfold encodeTurn
  simp only [Nat.add_mod_right, hlen]
  split
  · rfl
  · split
    · next h =>
      obtain ⟨k, rfl⟩ : ∃ k, idx = k + 1 := ⟨idx - 1, by omega⟩
      rfl
    · rfl

theorem encodeRest_block (a b c : UInt8) (s : List UInt8) :
    encodeRest etab last (a :: b :: c :: s) = encodeRest etab last s := by
  unfold encodeRest
  simp only [List.length_cons, Nat.add_assoc, Nat.reduceAdd, Nat.add_mod_right]
  split
  · next h =>
    obtain ⟨k, hk⟩ : ∃ k, s.length = k + 1 := ⟨s.length - 1, by omega⟩
    rw [hk]
    rfl
  · rfl

theorem encodeWith_block (a b c : UInt8) (s : List UInt8) :
    encodeWith etab last (a :: b :: c :: s) =
      lookup etab (sextet₀ a) :: lookup etab (sextet₁ a b) ::
      lookup etab (sextet₂ b c) :: lookup etab (sextet₃ c) :: encodeWith etab last s := by
  have hc : encodeTurn etab (a :: b :: c :: s) 1 =
      [lookup etab (sextet₁ a b), lookup etab (sextet₂ b c)] := by
    rw [encodeTurn, if_neg (by decide), if_pos (by decide), if_pos (by simp)]
    rfl
  have hrange : List.range (a :: b :: c :: s).length =
      0 :: 1 :: 2 :: (List.range s.length).map (· + 3) := by
    simp only [List.length_cons, List.range_succ_eq_map, List.map_cons, List.map_map]
    rfl
  rw [encodeWith, encodeRest_block, hrange, List.flatMap_cons, List.flatMap_cons, List.flatMap_cons,
    hc, List.flatMap_map]
  simp only [encodeTurn_block]
  rfl

theorem encodeWith_one (a : UInt8) :
    encodeWith etab last [a] =
      [lookup etab (sextet₀ a), lookup etab (sextet₁ a 0), last, last] := by
  have hzero : ofUChar a <<< 4 &&& 0x30 = sextet₁ a 0 := (BitVec.or_zero).symm
  show [lookup etab (sextet₀ a), lookup etab (ofUChar a <<< 4 &&& 0x30), last, last] = _
  rw [hzero]

theorem encodeWith_two (a b : UInt8) :
    encodeWith etab last [a, b] =
      [lookup etab (sextet₀ a), lookup etab (sextet₁ a b), lookup etab (sextet₂ b 0), last] := rfl

/-! ### There and back -/

/-- How many characters fill up the last block. -/
def filling (s : List UInt8) : ℕ := (3 - s.length % 3) % 3

theorem filling_block (a b c : UInt8) (s : List UInt8) :
    filling (a :: b :: c :: s) = filling s := by
  simp only [filling, List.length_cons, Nat.add_assoc, Nat.reduceAdd, Nat.add_mod_right]

theorem length_encodeWith (etab : List UInt8) (last : UInt8) :
    ∀ s, (encodeWith etab last s).length = 4 * ((s.length + 2) / 3)
  | [] => rfl
  | [_] => by simp [encodeWith_one]
  | [_, _] => by simp [encodeWith_two]
  | a :: b :: c :: s => by
    have ih := length_encodeWith etab last s
    rw [encodeWith_block]
    simp only [List.length_cons, ih]
    omega

/-- Each block is decoded to three bytes. -/
theorem decodeLoop_encodeWith (h : Alphabet etab last) :
    ∀ s, decodeLoop (encodeWith etab last s) = s ++ List.replicate (filling s) 0
  | [] => rfl
  | [a] => by
    have hsecond : toChar (sextet₁ a 0 <<< 4 ||| (0 : TInt).sshiftRight 2) = 0 :=
      toChar_sextets₁ a 0 0
    have hthird : toChar ((0 : TInt) <<< 6 ||| 0) = 0 := by decide
    rw [encodeWith_one, decodeLoop, uudecode1, h.backward_lookup (sextet₀_lt a),
      h.backward_lookup (sextet₁_lt a 0), h.backward_last, toChar_sextets₀, hsecond, hthird]
    rfl
  | [a, b] => by
    have hthird : toChar (sextet₂ b 0 <<< 6 ||| 0) = 0 := toChar_sextets₂ b 0
    rw [encodeWith_two, decodeLoop, uudecode1, h.backward_lookup (sextet₀_lt a),
      h.backward_lookup (sextet₁_lt a b), h.backward_lookup (sextet₂_lt b 0), h.backward_last,
      toChar_sextets₀, toChar_sextets₁, hthird]
    rfl
  | a :: b :: c :: s => by
    rw [encodeWith_block, decodeLoop, uudecode1, h.backward_lookup (sextet₀_lt a),
      h.backward_lookup (sextet₁_lt a b), h.backward_lookup (sextet₂_lt b c),
      h.backward_lookup (sextet₃_lt c), toChar_sextets₀, toChar_sextets₁, toChar_sextets₂,
      decodeLoop_encodeWith h s, filling_block]
    rfl

/-- The characters at the end tell how many of them fill up the block. -/
theorem isLast_encodeWith (h : Alphabet etab last) : ∀ s, s ≠ [] →
    isLast ((encodeWith etab last s).getD ((encodeWith etab last s).length - 1) 0) =
      decide (filling s ≠ 0) ∧ (filling s ≠ 0 →
        isLast ((encodeWith etab last s).getD ((encodeWith etab last s).length - 2) 0) =
          decide (filling s = 2))
  | [], hne => absurd rfl hne
  | [_], _ => by
    rw [encodeWith_one]
    exact ⟨h.isLast_last, fun _ => h.isLast_last⟩
  | [a, b], _ => ⟨h.isLast_last, fun _ => h.isLast_etab _ (sextet₂_lt b 0)⟩
  | [a, b, c], _ => by
    have hfill : filling [a, b, c] = 0 := by simp [filling]
    rw [encodeWith_block, hfill]
    exact ⟨h.isLast_etab _ (sextet₃_lt c), fun hne => absurd rfl hne⟩
  | a :: b :: c :: d :: s, _ => by
    have ih := isLast_encodeWith h (d :: s) (List.cons_ne_nil d s)
    have hlen : 4 ≤ (encodeWith etab last (d :: s)).length := by
      rw [length_encodeWith, List.length_cons]
      omega
    rw [encodeWith_block, filling_block]
    generalize encodeWith etab last (d :: s) = t at *
    obtain ⟨k, hk⟩ : ∃ k, t.length = k + 2 := ⟨t.length - 2, by omega⟩
    simp only [List.length_cons, hk] at ih ⊢
    exact ih

theorem decode_encodeWith (h : Alphabet etab last) (s : List UInt8) :
    decode (encodeWith etab last s) = .ok s := by
  have hmod : ¬(encodeWith etab last s).length % 4 ≠ 0 := by
    rw [length_encodeWith]
    omega
  rw [decode, if_neg hmod]
  simp only [decodeLoop_encodeWith h]
  cases s with
  | nil => rfl
  | cons a s =>
    obtain ⟨hfirst, hsecond⟩ := isLast_encodeWith h (a :: s) (List.cons_ne_nil a s)
    have hcases : filling (a :: s) = 0 ∨ filling (a :: s) = 1 ∨ filling (a :: s) = 2 := by
      have hlt : filling (a :: s) < 3 := Nat.mod_lt _ (by decide)
      omega
    have hlength : decodedLength (encodeWith etab last (a :: s))
        ((a :: s).length + filling (a :: s)) = (a :: s).length := by
      rw [decodedLength, if_pos (by simp), hfirst]
      rcases hcases with hfill | hfill | hfill
      · rw [hfill]
        rfl
      · rw [hsecond (by omega), hfill]
        rfl
      · rw [hsecond (by omega), hfill]
        rfl
    rw [List.length_append, List.length_replicate, hlength, List.take_left]

/-- What is encoded in either alphabet is decoded, and the length of it is that of whole blocks. -/
theorem decode_encode (s : List UInt8) :
    decode (encode s) = .ok s ∧ decode (encodeUrl s) = .ok s ∧
      (encode s).length = 4 * (s.length ⌈/⌉ 3) ∧
      (encodeUrl s).length = 4 * (s.length ⌈/⌉ 3) := by
  rw [Nat.ceilDiv_eq_add_pred_div]
  exact ⟨decode_encodeWith alphabet_std s, decode_encodeWith alphabet_url s,
    length_encodeWith _ _ s, length_encodeWith _ _ s⟩

end Base64

/-! ### Hexadecimal -/

theorem stroka2Byte_digits (b : UInt8) :
    UInt8.ofInt (stroka2Byte (digitToChar (b / 16)) (digitToChar (b % 16))) = b := by
  revert b
  apply forall_byte
  decide +kernel

theorem length_hexEncode (h : List UInt8) : (hexEncode h).length = 2 * h.length := by
  induction h with
  | nil => rfl
  | cons b h ih =>
    rw [hexEncode, List.flatMap_cons, List.length_append, ← hexEncode, ih, List.length_cons]
    simp only [List.length_cons, List.length_nil]
    omega

/-- The two characters of each byte. -/
theorem getD_hexEncode (h : List UInt8) (d : ℕ → UInt8) (i : ℕ) (hi : i < h.length) :
    (hexEncode h).getD (2 * i) (d (2 * i)) = digitToChar (h[i] / 16) ∧
      (hexEncode h).getD (2 * i + 1) (d (2 * i + 1)) = digitToChar (h[i] % 16) := by
  induction h generalizing i d with
  | nil => exact absurd hi (Nat.not_lt_zero i)
  | cons b h ih =>
    cases i with
    | zero => exact ⟨rfl, rfl⟩
    | succ i => exact ih (fun j => d (j + 2)) i (Nat.lt_of_succ_lt_succ hi)

section Loop

variable (mem : ℕ → UInt8)

/-- What is written for the next `n` pairs of characters. -/
def decodedFrom (b n : ℕ) : List UInt8 :=
  (List.range n).map fun i => UInt8.ofInt (stroka2Byte (mem (b + 2 * i)) (mem (b + 2 * i + 1)))

theorem decodedFrom_succ (b n : ℕ) :
    decodedFrom mem b (n + 1) = UInt8.ofInt (stroka2Byte (mem b) (mem (b + 1))) ::
      decodedFrom mem (b + 2) n := by
  rw [decodedFrom, List.range_succ_eq_map, List.map_cons, List.map_map]
  refine congrArg _ (List.map_congr_left fun i _ => ?_)
  simp only [Function.comp_apply, Nat.succ_eq_add_one,
    show b + 2 * (i + 1) = b + 2 + 2 * i by omega]

/-- The loop reads all characters up to the end, once, when their number is even. -/
theorem turns_hexDecode (n b : ℕ) (out : List UInt8) (reads : List ℕ) :
    turns (hexDecodeTurn mem (b + 2 * n)) (n + 1) ⟨b, out, reads⟩ =
      .exit (out ++ decodedFrom mem b n)
        ⟨b + 2 * n, out ++ decodedFrom mem b n, reads ++ List.range' b (2 * n)⟩ := by
  induction n generalizing b out reads with
  | zero => simp [turns, hexDecodeTurn, decodedFrom]
  | succ n ih =>
    have hturn : hexDecodeTurn mem (b + 2 * (n + 1)) ⟨b, out, reads⟩ =
        .again ⟨b + 2, out ++ [UInt8.ofInt (stroka2Byte (mem b) (mem (b + 1)))],
          reads ++ [b, b + 1]⟩ :=
      if_pos (by simp only; omega)
    rw [turns_again hturn, show b + 2 * (n + 1) = b + 2 + 2 * n by omega, ih, decodedFrom_succ,
      show 2 * (n + 1) = 2 * n + 1 + 1 by omega, List.range'_succ, List.range'_succ]
    simp

/-- Behind an end at an odd distance there is no other. -/
theorem not_leaves_hexDecode {e : ℕ} {s : THexDecode} (h : (s.b + e) % 2 = 1) :
    ¬Leaves (hexDecodeTurn mem e) s := by
  refine not_leaves_of_invariant (fun s => (s.b + e) % 2 = 1) (fun s hs => ?_) h
  refine ⟨_, if_pos (by omega), ?_⟩
  simp only
  omega

end Loop

/-- `HexDecode` returns, and has read no byte outside of its input. -/
def ReadsInside (h : List UInt8) (behind : ℕ → UInt8) : Prop :=
  ∃ fuel out s, hexDecode fuel h behind = .exit out s ∧ ∀ i ∈ s.reads, i < h.length

theorem hexDecode_even {h : List UInt8} (n : ℕ) (hn : h.length = 2 * n) (behind : ℕ → UInt8)
    (more : ℕ) :
    hexDecode (n + 1 + more) h behind = .exit (decodedFrom (fun i => h.getD i (behind i)) 0 n)
      ⟨2 * n, decodedFrom (fun i => h.getD i (behind i)) 0 n, List.range' 0 (2 * n)⟩ := by
  have hloop := turns_hexDecode (fun i => h.getD i (behind i)) n 0 [] []
  rw [Nat.zero_add, List.nil_append, List.nil_append] at hloop
  rw [hexDecode, hn]
  exact turns_mono hloop (Nat.le_add_right _ _)

theorem decodedFrom_hexEncode (h : List UInt8) (behind : ℕ → UInt8) :
    decodedFrom (fun i => (hexEncode h).getD i (behind i)) 0 h.length = h := by
  refine List.ext_getElem (by simp [decodedFrom]) fun i hi hi' => ?_
  obtain ⟨hfirst, hsecond⟩ := getD_hexEncode h behind i hi'
  simp only [decodedFrom, List.getElem_map, List.getElem_range, Nat.zero_add]
  rw [hfirst, hsecond, stroka2Byte_digits]

/-- What is encoded is decoded; and the decoder keeps to its input exactly if the length of it is
even. -/
theorem hexDecode_iff (h : List UInt8) (behind : ℕ → UInt8) (more : ℕ) :
    (∃ s, hexDecode (h.length + 1 + more) (hexEncode h) behind = .exit h s) ∧
      (ReadsInside h behind ↔ h.length % 2 = 0) := by
  refine ⟨?_, ?_, ?_⟩
  · have hdecode := hexDecode_even h.length (length_hexEncode h) behind more
    rw [decodedFrom_hexEncode] at hdecode
    exact ⟨_, hdecode⟩
  · rintro ⟨fuel, out, s, hexit, -⟩
    by_contra hodd
    exact not_leaves_hexDecode _ (s := {}) (by simp only; omega) ⟨fuel, out, s, hexit⟩
  · intro heven
    obtain ⟨n, hn⟩ := Nat.dvd_of_mod_eq_zero heven
    refine ⟨n + 1 + 0, _, _, hexDecode_even n hn behind 0, fun i hi => ?_⟩
    obtain ⟨j, hj, rfl⟩ := List.mem_range'.1 hi
    omega

/-- Of one character, the first turn reads two, and the pointer is behind the end. -/
theorem hexDecode_one_character :
    hexDecode 1 [65] (fun _ => 0) = .again ⟨2, [112], [0, 1]⟩ ∧ ¬ReadsInside [65] fun _ => 0 := by
  refine ⟨by decide, ?_⟩
  rintro ⟨fuel, out, s, hexit, -⟩
  exact not_leaves_hexDecode _ (s := {}) (by decide) ⟨fuel, out, s, hexit⟩

end Balancer
