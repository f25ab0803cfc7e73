import Balancer.Theory.Fallible
import Balancer.Util.Cast

/-!
# Integers as text and back

What `IntFromString` accepts is a numeral: a sign and digits, whose number is in the range of the
type (`intFromString_iff`). What `IntToString` writes is the shortest numeral of the value, if there
is room for it (`intToString_spec`), and it is read back as the value.
-/

namespace Balancer

open TIntParser TAbs
open Function (update update_of_ne update_self)
open BitVec (toNat_ofNat le_def lt_def toNat_udiv toNat_mul toNat_zero toInt_eq_toNat_cond toNat_neg
  toInt_lt)

/-! ### Numerals -/

/-- The digit of a letter, and 16 if it is none. -/
def digitValue (c : UInt8) : ℕ :=
  if 48 ≤ c.toNat ∧ c.toNat ≤ 57 then c.toNat - 48
  else if 65 ≤ c.toNat ∧ c.toNat ≤ 70 then c.toNat - 55
  else if 97 ≤ c.toNat ∧ c.toNat ≤ 102 then c.toNat - 87
  else 16

/-- The number of a string of digits. -/
def numeralValue (base : ℕ) (ds : List UInt8) : ℕ := Nat.ofDigits base (ds.map digitValue).reverse

/-- What may stand in front of the digits. -/
structure TSign where
  minus : Bool
  plus : Bool
  deriving DecidableEq, Repr

namespace TSign

def text (s : TSign) : List UInt8 := (if s.minus then [45] else []) ++ (if s.plus then [43] else [])

def apply (s : TSign) (n : ℕ) : ℤ := if s.minus then -n else n

/-- At most one sign. -/
def Single (s : TSign) : Prop := ¬(s.minus = true ∧ s.plus = true)

/-- A minus stands only before the digits of a type with a sign. -/
def Allowed (s : TSign) (ty : TIntegral) : Prop := s.minus = true → ty.isSignedInt = true

end TSign

/-- A sign of `signs` and one or more digits of the base, for a number in the range of the type. -/
def Denotes (signs : TSign → Prop) (ty : TIntegral) (b : TBase) (text : List UInt8) (n : ℤ) :
    Prop :=
  ∃ s ds, signs s ∧ s.Allowed ty ∧ text = s.text ++ ds ∧ ds ≠ [] ∧
    (∀ c ∈ ds, digitValue c < b.base) ∧
    n = s.apply (numeralValue b.base ds) ∧ ty.InRange n

section Numerals

variable {base : ℕ} {w : ℕ}

theorem foldl_eq_ofDigits (ds : List UInt8) :
    numeralValue base ds = ds.foldl (fun n c => n * base + digitValue c) 0 := by
  rw [numeralValue, Nat.ofDigits_eq_foldr, List.foldr_reverse, List.foldl_map]
  simp only [Nat.cast_id, Nat.add_comm, Nat.mul_comm]

theorem foldl_mono (ds : List UInt8) (hb : 0 < base) (r : ℕ) :
    r ≤ ds.foldl (fun n c => n * base + digitValue c) r := by
  induction ds generalizing r with
  | nil => exact Nat.le_refl _
  | cons c ds ih =>
    have h : r ≤ r * base := Nat.le_mul_of_pos_right r hb
    exact (h.trans (Nat.le_add_right _ _)).trans (ih _)

/-- The letter of the table, by the value of the byte as a `char`. -/
theorem toNat_signExtend (hw : 16 ≤ w) (c : UInt8) :
    (c.toBitVec.signExtend w).toNat = if c.toNat < 128 then c.toNat else 2 ^ w - 256 + c.toNat := by
  have hc : c.toNat < 256 := c.toNat_lt
  have hw' : 2 ^ 16 ≤ 2 ^ w := Nat.pow_le_pow_right (by decide) hw
  have hmsb : c.toBitVec.msb = decide (128 ≤ c.toNat) := by
    rw [BitVec.msb_eq_decide]
    rfl
  have hset : (c.toBitVec.setWidth w).toNat = c.toNat := by
    rw [BitVec.toNat_setWidth]
    exact Nat.mod_eq_of_lt (show c.toNat < 2 ^ w by omega)
  rw [BitVec.toNat_signExtend, hmsb, hset]
  by_cases h : c.toNat < 128
  · simp [h, Nat.not_le.2 h]
  · simp only [h, Nat.not_lt.1 h, decide_true, if_true, if_false]
    omega

theorem letterToIntMap_eq : ∀ n < 103, letterToIntMap.getD n 0 =
    (if digitValue (UInt8.ofNat n) < 16 then digitValue (UInt8.ofNat n) else 20) := by
  decide

theorem digitValue_of_ge {c : UInt8} (h : 103 ≤ c.toNat) : digitValue c = 16 := by
  unfold digitValue
  rw [if_neg (by omega), if_neg (by omega), if_neg (by omega)]

/-- The two tests of a letter. -/
theorem letter_iff (hw : 16 ≤ w) (hb : base < 17) (c : UInt8) :
    (letterToIntMap.length ≤ (c.toBitVec.signExtend w).toNat ∨
      base ≤ letterToIntMap.getD (c.toBitVec.signExtend w).toNat 0) ↔ base ≤ digitValue c := by
  have hw' : 2 ^ 16 ≤ 2 ^ w := Nat.pow_le_pow_right (by decide) hw
  have hlen : letterToIntMap.length = 103 := rfl
  rw [toNat_signExtend hw, hlen]
  by_cases hc : c.toNat < 103
  · rw [if_pos (by omega), letterToIntMap_eq _ hc, UInt8.ofNat_toNat]
    split <;> omega
  · have h16 := digitValue_of_ge (Nat.not_lt.1 hc)
    refine iff_of_true (.inl ?_) (by omega)
    split <;> omega

theorem letter_eq (hw : 16 ≤ w) {c : UInt8} (h : digitValue c < 16) :
    letterToIntMap.getD (c.toBitVec.signExtend w).toNat 0 = digitValue c := by
  have hc : c.toNat < 103 := by
    by_contra hge
    rw [digitValue_of_ge (Nat.not_lt.1 hge)] at h
    exact absurd h (by decide)
  rw [toNat_signExtend hw, if_pos (by omega), letterToIntMap_eq _ hc, UInt8.ofNat_toNat, if_pos h]

end Numerals

/-! ### Reading -/

namespace TIntParser

variable {w : ℕ} {b : TBase} {begin0 ds : List UInt8} {pos : ℕ} {ret v : BitVec w}

theorem toNat_base (hw : 16 ≤ w) (b : TBase) : (BitVec.ofNat w b.base).toNat = b.base := by
  have hw' : 2 ^ 16 ≤ 2 ^ w := Nat.pow_le_pow_right (by decide) hw
  rw [toNat_ofNat]
  exact Nat.mod_eq_of_lt (by have := b.lt_seventeen; omega)

/-- The two tests before a digit is appended fail exactly if the number does not fit. -/
theorem fits_iff (hw : 16 ≤ w) (b : TBase) {d : ℕ} (hd : d < b.base) (ret : BitVec w) :
    (¬maxUnsigned / BitVec.ofNat w b.base < ret ∧
      ¬maxUnsigned - BitVec.ofNat w d < ret * BitVec.ofNat w b.base) ↔
      ret.toNat * b.base + d < 2 ^ w := by
  have hw' : 2 ^ 16 ≤ 2 ^ w := Nat.pow_le_pow_right (by decide) hw
  have hb := b.lt_seventeen
  have hd' : (BitVec.ofNat w d).toNat = d := by
    rw [toNat_ofNat]
    exact Nat.mod_eq_of_lt (by omega)
  have hmax : (maxUnsigned : BitVec w).toNat = 2 ^ w - 1 := BitVec.toNat_allOnes
  have hle : BitVec.ofNat w d ≤ maxUnsigned := by
    rw [le_def, hd', hmax]
    omega
  have hpos : 0 < b.base := Nat.zero_lt_of_lt b.one_lt
  rw [lt_def, lt_def, toNat_udiv, BitVec.toNat_sub_of_le hle, toNat_mul,
    toNat_base hw, hd', hmax, Nat.not_lt, Nat.not_lt, Nat.le_div_iff_mul_le hpos]
  constructor
  · rintro ⟨hmul, hsum⟩
    rw [Nat.mod_eq_of_lt (by omega)] at hsum
    omega
  · intro hfits
    rw [Nat.mod_eq_of_lt (by omega)]
    omega

/-- One turn of the loop, by the digit that is read. -/
theorem parseLoop_cons (hw : 16 ≤ w) (b : TBase) (begin0 : List UInt8) (pos : ℕ) (c : UInt8)
    (ds : List UInt8) (ret : BitVec w) :
    parseLoop b.base begin0 pos (c :: ds) ret =
      if b.base ≤ digitValue c then .error (.unexpectedSymbol c pos begin0)
      else if ret.toNat * b.base + digitValue c < 2 ^ w then
        parseLoop b.base begin0 (pos + 1) ds
          (ret * BitVec.ofNat w b.base + BitVec.ofNat w (digitValue c))
      else .error (.integerOverflow begin0) := by
  have hletter := letter_iff (w := w) hw b.lt_seventeen c
  rw [parseLoop]
  by_cases hc : b.base ≤ digitValue c
  · rw [if_pos hc]
    rcases hletter.2 hc with h | h
    · rw [if_pos h]
    · simp only [h, if_true, ite_self]
  · obtain ⟨hlen, -⟩ := not_or.1 (mt hletter.1 hc)
    have hnum : letterToIntMap.getD (c.toBitVec.signExtend w).toNat 0 = digitValue c :=
      letter_eq hw (by have := b.lt_seventeen; omega)
    have hfits := fits_iff hw b (Nat.not_le.1 hc) ret
    simp only [hlen, hnum, hc, if_false]
    by_cases h : ret.toNat * b.base + digitValue c < 2 ^ w
    · obtain ⟨hdiv, hsub⟩ := hfits.2 h
      rw [if_pos h, if_neg hdiv, if_neg hsub]
    · rw [if_neg h]
      rcases not_and_or.1 (mt hfits.1 h) with hdiv | hsub
      · rw [if_pos (not_not.1 hdiv)]
      · rw [if_pos (not_not.1 hsub), ite_self]

theorem parseLoop_ok_iff (hw : 16 ≤ w) :
    parseLoop b.base begin0 pos ds ret = .ok v ↔ (∀ c ∈ ds, digitValue c < b.base) ∧
      ds.foldl (fun n c => n * b.base + digitValue c) ret.toNat = v.toNat := by
  induction ds generalizing pos ret with
  | nil => simp [parseLoop, BitVec.toNat_inj]
  | cons c ds ih =>
    rw [List.forall_mem_cons, List.foldl_cons, parseLoop_cons hw]
    by_cases hc : b.base ≤ digitValue c
    · rw [if_pos hc]
      exact iff_of_false (by simp) fun h => Nat.not_lt.2 hc h.1.1
    · rw [if_neg hc]
      by_cases hfits : ret.toNat * b.base + digitValue c < 2 ^ w
      · have hnext : (ret * BitVec.ofNat w b.base + BitVec.ofNat w (digitValue c)).toNat =
            ret.toNat * b.base + digitValue c := by
          rw [BitVec.toNat_add, toNat_mul, toNat_base hw, toNat_ofNat, ← Nat.add_mod]
          exact Nat.mod_eq_of_lt hfits
        rw [if_pos hfits, ih, hnext, and_assoc, and_iff_right (Nat.not_le.1 hc)]
      · rw [if_neg hfits]
        refine iff_of_false (by simp) fun h => ?_
        -- the number only grows behind an overflow
        have hgrows :=
          foldl_mono ds (Nat.zero_lt_of_lt b.one_lt) (ret.toNat * b.base + digitValue c)
        have := v.isLt
        omega

/-- A string without a minus. -/
theorem parseUnsigned_ok_iff (hw : 16 ≤ w) (text : List UInt8) :
    parseUnsigned b.base text = .ok v ↔ ∃ plus ds, text = (TSign.mk false plus).text ++ ds ∧
      ds ≠ [] ∧
      (∀ c ∈ ds, digitValue c < b.base) ∧ numeralValue b.base ds = v.toNat := by
  simp only [foldl_eq_ofDigits]
  have h0 : (0 : BitVec w).toNat = 0 := toNat_zero
  constructor
  · intro h
    cases text with
    | nil => cases h
    | cons c rest =>
      rw [parseUnsigned] at h
      split at h
      · next hc =>
        subst hc
        split at h
        · cases h
        · next hne =>
          rw [parseLoop_ok_iff hw, h0] at h
          exact ⟨true, rest, rfl, hne, h⟩
      · rw [parseLoop_ok_iff hw, h0] at h
        exact ⟨false, c :: rest, rfl, List.cons_ne_nil _ _, h⟩
  · rintro ⟨plus, ds, rfl, hne, h⟩
    rw [← h0] at h
    cases plus with
    | true =>
      show parseUnsigned b.base (43 :: ds) = _
      rw [parseUnsigned, if_pos rfl, if_neg hne]
      exact (parseLoop_ok_iff hw).2 h
    | false =>
      show parseUnsigned b.base ds = _
      obtain ⟨c, rest, rfl⟩ := List.exists_cons_of_ne_nil hne
      have hc : c ≠ 43 := by
        rintro rfl
        have hdigit := h.1 43 List.mem_cons_self
        have h16 : digitValue 43 = 16 := rfl
        have := b.lt_seventeen
        omega
      rw [parseUnsigned, if_neg hc]
      exact (parseLoop_ok_iff hw).2 h

theorem two_pow_pred (hw : 16 ≤ w) : 2 ^ w = 2 * 2 ^ (w - 1) := by
  rw [← Nat.pow_succ']
  congr 1
  omega

theorem toNat_maxSigned : (maxSigned : BitVec w).toNat = 2 ^ (w - 1) - 1 := BitVec.toNat_intMax

theorem toNat_minSigned (hw : 16 ≤ w) : (minSigned : BitVec w).toNat = 2 ^ (w - 1) := by
  have hpos : 0 < 2 ^ (w - 1) := Nat.two_pow_pos _
  have := two_pow_pred hw
  have hmax : (maxUnsigned : BitVec w).toNat = 2 ^ w - 1 := BitVec.toNat_allOnes
  have hle : (maxSigned : BitVec w) ≤ maxUnsigned := by
    rw [le_def, toNat_maxSigned, hmax]
    omega
  rw [minSigned, BitVec.toNat_sub_of_le hle, toNat_maxSigned, hmax]
  omega

/-- The negative of a number that is small enough, also of the one that has no positive
counterpart. -/
theorem toInt_neg_of_le (hw : 16 ≤ w) (h : v.toNat ≤ 2 ^ (w - 1)) : (-v).toInt = -v.toNat := by
  have hpow := two_pow_pred hw
  have hpos : 0 < 2 ^ (w - 1) := Nat.two_pow_pos _
  rw [toInt_eq_toNat_cond, toNat_neg]
  by_cases h0 : v.toNat = 0
  · simp [h0]
  · rw [Nat.mod_eq_of_lt (by omega), if_neg (by omega)]
    omega

theorem toInt_of_lt (hw : 16 ≤ w) (h : v.toNat < 2 ^ (w - 1)) : v.toInt = v.toNat := by
  have hpow := two_pow_pred hw
  exact BitVec.toInt_eq_toNat_of_lt (by omega)

theorem head_ne_minus (plus : Bool) (hne : ds ≠ []) (hds : ∀ c ∈ ds, digitValue c < b.base) :
    ∃ c rest, (TSign.mk false plus).text ++ ds = c :: rest ∧ c ≠ 45 := by
  cases plus with
  | true => exact ⟨43, ds, rfl, by decide⟩
  | false =>
    obtain ⟨c, rest, rfl⟩ := List.exists_cons_of_ne_nil hne
    refine ⟨c, rest, rfl, ?_⟩
    rintro rfl
    have hdigit := hds 45 List.mem_cons_self
    have h16 : digitValue 45 = 16 := rfl
    have := b.lt_seventeen
    omega

/-- What is accepted is a numeral with or without a minus, of the value that is returned. -/
theorem parseSigned_sound (hw : 16 ≤ w) {text : List UInt8} {v : BitVec w}
    (h : parseSigned b.base text = .ok v) :
    ∃ s ds, text = TSign.text s ++ ds ∧ ds ≠ [] ∧ (∀ c ∈ ds, digitValue c < b.base) ∧
      v.toInt = s.apply (numeralValue b.base ds) := by
  cases text with
  | nil => cases h
  | cons c rest =>
    rw [parseSigned] at h
    split at h
    · next hc =>
      subst hc
      obtain ⟨ret, hret, h⟩ := Fallible.bind_eq_ok.1 h
      split at h
      · cases h
      · next hle =>
        cases h
        rw [lt_def, toNat_minSigned hw, Nat.not_lt] at hle
        obtain ⟨plus, ds, rfl, hne, hds, hval⟩ := (parseUnsigned_ok_iff hw _).1 hret
        rw [toInt_neg_of_le hw hle]
        exact ⟨⟨true, plus⟩, ds, rfl, hne, hds, by rw [hval]; rfl⟩
    · obtain ⟨ret, hret, h⟩ := Fallible.bind_eq_ok.1 h
      split at h
      · cases h
      · next hle =>
        cases h
        rw [lt_def, toNat_maxSigned] at hle
        obtain ⟨plus, ds, htext, hne, hds, hval⟩ := (parseUnsigned_ok_iff hw _).1 hret
        have hpos : 0 < 2 ^ (w - 1) := Nat.two_pow_pos _
        rw [toInt_of_lt hw (by omega)]
        exact ⟨⟨false, plus⟩, ds, htext, hne, hds, by rw [hval]; rfl⟩

section Complete

variable (hw : 16 ≤ w) (plus : Bool) (hne : ds ≠ []) (hds : ∀ c ∈ ds, digitValue c < b.base)
include hw hne hds

theorem parseUnsigned_ofNat (hlt : numeralValue b.base ds < 2 ^ w) :
    parseUnsigned b.base ((TSign.mk false plus).text ++ ds) =
      .ok (BitVec.ofNat w (numeralValue b.base ds)) :=
  (parseUnsigned_ok_iff hw _).2
    ⟨plus, ds, rfl, hne, hds, (toNat_ofNat ..).trans (Nat.mod_eq_of_lt hlt) |>.symm⟩

theorem parseSigned_minus (hle : numeralValue b.base ds ≤ 2 ^ (w - 1)) :
    parseSigned b.base ((TSign.mk true plus).text ++ ds) =
      .ok (-BitVec.ofNat w (numeralValue b.base ds)) := by
  have hpow := two_pow_pred hw
  have hpos : 0 < 2 ^ (w - 1) := Nat.two_pow_pos _
  have hparse := parseUnsigned_ofNat hw plus hne hds (by omega)
  show parseSigned b.base (45 :: ((TSign.mk false plus).text ++ ds)) = _
  rw [parseSigned, if_pos rfl, hparse, Fallible.ok_bind, if_neg ?_]
  · rfl
  · rw [lt_def, toNat_minSigned hw, toNat_ofNat, Nat.mod_eq_of_lt (by omega)]
    omega

theorem parseSigned_noMinus (hlt : numeralValue b.base ds < 2 ^ (w - 1)) :
    parseSigned b.base ((TSign.mk false plus).text ++ ds) =
      .ok (BitVec.ofNat w (numeralValue b.base ds)) := by
  have hpow := two_pow_pred hw
  have hparse := parseUnsigned_ofNat hw plus hne hds (by omega)
  obtain ⟨c, rest, htext, hc⟩ := head_ne_minus plus hne hds
  rw [htext] at hparse ⊢
  rw [parseSigned, if_neg hc, hparse, Fallible.ok_bind, if_neg ?_]
  · rfl
  · rw [lt_def, toNat_maxSigned, toNat_ofNat, Nat.mod_eq_of_lt (by omega)]
    omega

end Complete

/-- A string with or without a minus. -/
theorem parseSigned_iff (hw : 16 ≤ w) (text : List UInt8) (n : ℤ) :
    (∃ v : BitVec w, parseSigned b.base text = .ok v ∧ v.toInt = n) ↔
      ∃ s ds, text = TSign.text s ++ ds ∧ ds ≠ [] ∧ (∀ c ∈ ds, digitValue c < b.base) ∧
        n = s.apply (numeralValue b.base ds) ∧ -2 ^ (w - 1) ≤ n ∧ n < 2 ^ (w - 1) := by
  constructor
  · rintro ⟨v, h, rfl⟩
    obtain ⟨s, ds, htext, hne, hds, hval⟩ := parseSigned_sound hw h
    exact ⟨s, ds, htext, hne, hds, hval, v.le_toInt, toInt_lt⟩
  · rintro ⟨⟨minus, plus⟩, ds, rfl, hne, hds, rfl, hlo, hhi⟩
    have hpow := two_pow_pred hw
    have hpos : 0 < 2 ^ (w - 1) := Nat.two_pow_pos _
    have hret : numeralValue b.base ds ≤ 2 ^ (w - 1) →
        (BitVec.ofNat w (numeralValue b.base ds)).toNat = numeralValue b.base ds := fun hle => by
      rw [toNat_ofNat]
      exact Nat.mod_eq_of_lt (by omega)
    cases minus with
    | true =>
      simp only [TSign.apply, if_true, neg_le_neg_iff] at hlo
      have hle : numeralValue b.base ds ≤ 2 ^ (w - 1) := by exact_mod_cast hlo
      refine ⟨_, parseSigned_minus hw plus hne hds hle, ?_⟩
      rw [toInt_neg_of_le hw (by rwa [hret hle]), hret hle]
      rfl
    | false =>
      simp only [TSign.apply, Bool.false_eq_true, if_false] at hhi
      have hlt : numeralValue b.base ds < 2 ^ (w - 1) := by exact_mod_cast hhi
      refine ⟨_, parseSigned_noMinus hw plus hne hds hlt, ?_⟩
      rw [toInt_of_lt hw (by rwa [hret hlt.le]), hret hlt.le]
      rfl

end TIntParser

theorem TIntegralRank.width_ge (rank : TIntegralRank) : 16 ≤ rank.width := by
  cases rank <;> decide

theorem value_unsigned (rank : TIntegralRank) (v : TIntegral.Word ⟨rank, false⟩) :
    TIntegral.value ⟨rank, false⟩ v = v.toNat := rfl

theorem exists_intFromString_iff (ty : TIntegral) (b : TBase) (data : List UInt8) (n : ℤ) :
    (∃ v, intFromString ty b data = .ok v ∧ ty.value v = n) ↔
      Denotes (fun _ => True) ty b data n := by
  obtain ⟨rank, isSigned⟩ := ty
  have hw := rank.width_ge
  cases isSigned with
  | true =>
    refine (parseSigned_iff hw data n).trans ?_
    simp [Denotes, TSign.Allowed, TIntegral.InRange]
  | false =>
    constructor
    · rintro ⟨v, h, rfl⟩
      obtain ⟨plus, ds, htext, hne, hds, hval⟩ := (parseUnsigned_ok_iff hw data).1 h
      have hallowed : TSign.Allowed ⟨false, plus⟩ ⟨rank, false⟩ :=
        fun h => absurd h Bool.false_ne_true
      refine ⟨⟨false, plus⟩, ds, trivial, hallowed, htext, hne, hds, ?_, ?_⟩
      · rw [hval, value_unsigned]
        rfl
      · rw [value_unsigned]
        exact ⟨Int.natCast_nonneg _, by exact_mod_cast v.isLt⟩
    · rintro ⟨⟨minus, plus⟩, ds, -, hallowed, htext, hne, hds, rfl, hrange⟩
      obtain rfl : minus = false := by
        cases minus with
        | false => rfl
        | true => cases hallowed rfl
      have hlt : numeralValue b.base ds < 2 ^ rank.width := by
        have hhi : (numeralValue b.base ds : ℤ) < 2 ^ rank.width := hrange.2
        exact_mod_cast hhi
      have hret : (BitVec.ofNat rank.width (numeralValue b.base ds)).toNat =
          numeralValue b.base ds := by
        rw [toNat_ofNat]
        exact Nat.mod_eq_of_lt hlt
      refine ⟨BitVec.ofNat _ (numeralValue b.base ds), ?_, by
        show ((BitVec.ofNat rank.width (numeralValue b.base ds)).toNat : ℤ) = _
        rw [hret]
        rfl⟩
      exact (parseUnsigned_ok_iff hw data).2 ⟨plus, ds, htext, hne, hds, hret.symm⟩

/-- A string is read iff it is a numeral of the type: digits behind a sign, which for the types with
a sign may also be a minus, or a minus and a plus. For every other string an error is raised. -/
theorem intFromString_iff (ty : TIntegral) (b : TBase) (data : List UInt8) :
    (∀ n, (∃ v, intFromString ty b data = .ok v ∧ ty.value v = n) ↔
      Denotes (fun _ => True) ty b data n) ∧
      ((∃ e, intFromString ty b data = .error e) ↔ ∀ n, ¬Denotes (fun _ => True) ty b data n) := by
  have hiff := exists_intFromString_iff ty b data
  refine ⟨hiff, ?_⟩
  cases h : intFromString ty b data with
  | ok v => exact iff_of_false (by simp) fun hnone => hnone _ ((hiff _).1 ⟨v, h, rfl⟩)
  | error e =>
    refine iff_of_true ⟨e, rfl⟩ fun n hn => ?_
    obtain ⟨v, hv, -⟩ := (hiff n).2 hn
    rw [h] at hv
    cases hv

/-- Two signs are read, and no text with one sign. -/
theorem intFromString_two_signs :
    intFromString ⟨.int, true⟩ .ten [45, 43, 53] = .ok (-5) ∧
      ¬∃ n, Denotes TSign.Single ⟨.int, true⟩ .ten [45, 43, 53] n := by
  refine ⟨by decide +kernel, ?_⟩
  rintro ⟨n, ⟨minus, plus⟩, ds, hsingle, -, htext, -, hds, -⟩
  -- the second sign would be a digit
  have hplus : (43 : UInt8) ∉ ds := fun h => absurd (hds 43 h) (by decide)
  have hmem : ∀ u : List UInt8, u = ds → (43 : UInt8) ∉ u := fun u h => h ▸ hplus
  cases minus <;> cases plus
  · exact hmem _ htext (by decide)
  · cases htext
  · exact hmem _ (List.cons.inj htext).2 (by decide)
  · exact hsingle ⟨rfl, rfl⟩

/-! ### Writing -/

def digitChar (d : ℕ) : UInt8 := UInt8.ofNat (if d < 10 then 48 + d else 55 + d)

/-- The digits of a number from the last one on; 0 has one digit. -/
def lastDigits (base n : ℕ) : List ℕ := if n = 0 then [0] else Nat.digits base n

/-- The numeral of a value without leading zeros, and without a plus. -/
def numeral (ty : TIntegral) (b : TBase) (v : ty.Word) : List UInt8 :=
  (if ty.value v < 0 then [45] else []) ++
    ((lastDigits b.base (ty.value v).natAbs).map digitChar).reverse

/-- The memory with some bytes written from an address on. -/
def TMemory.write (mem : TMemory) (p : ℕ) (bs : List UInt8) : TMemory := fun i =>
  if p ≤ i then bs.getD (i - p) (mem i) else mem i

theorem TMemory.write_cons (mem : TMemory) (p : ℕ) (c : UInt8) (bs : List UInt8) :
    TMemory.write (update mem p c) (p + 1) bs = mem.write p (c :: bs) := by
  funext i
  unfold TMemory.write
  rcases Nat.lt_trichotomy i p with h | rfl | h
  · rw [if_neg (by omega), if_neg (by omega), update_of_ne (by omega)]
  · rw [if_neg (by omega), if_pos (Nat.le_refl i), update_self, Nat.sub_self]
    rfl
  · obtain ⟨k, rfl⟩ := Nat.exists_eq_add_of_lt h
    rw [if_pos (by omega), if_pos (by omega), update_of_ne (by omega),
      show p + k + 1 - (p + 1) = k by omega, show p + k + 1 - p = k + 1 by omega]
    rfl

theorem TMemory.write_nil (mem : TMemory) (p : ℕ) : mem.write p [] = mem := by
  funext i
  unfold TMemory.write
  split <;> rfl

theorem lastDigits_succ {base n : ℕ} (hb : 1 < base) (h : n / base ≠ 0) :
    lastDigits base n = n % base :: lastDigits base (n / base) := by
  have hn : n ≠ 0 := fun h0 => h (by rw [h0, Nat.zero_div])
  rw [lastDigits, lastDigits, if_neg hn, if_neg h, Nat.digits_def' hb (Nat.pos_of_ne_zero hn)]

theorem lastDigits_of_lt {base n : ℕ} (hb : 1 < base) (h : n / base = 0) :
    lastDigits base n = [n % base] := by
  have hlt : n < base := (Nat.div_eq_zero_iff.1 h).resolve_left (by omega)
  rw [lastDigits, Nat.mod_eq_of_lt hlt]
  split
  · next h0 => rw [h0]
  · next h0 => exact Nat.digits_of_lt base n h0 hlt

theorem lastDigits_ne_nil (base n : ℕ) : lastDigits base n ≠ [] := by
  rw [lastDigits]
  split
  · exact List.cons_ne_nil _ _
  · next h => exact Nat.digits_ne_nil_iff_ne_zero.2 h

namespace TSelector

variable {w : ℕ} {b : TBase}

theorem intToChar_eq : ∀ d < 16, intToChar.getD d 0 = digitChar d := by
  decide

theorem toNat_udiv_base (hw : 16 ≤ w) (b : TBase) (t : BitVec w) :
    (t / BitVec.ofNat w b.base).toNat = t.toNat / b.base := by
  rw [toNat_udiv, toNat_base hw]

/-- One turn of the loop. -/
theorem formatLoop_succ (hw : 16 ≤ w) (b : TBase) (len : ℕ) (t : BitVec w) (tmp : ℕ)
    (mem : TMemory) : formatLoop b.base (len + 1) t tmp mem =
      if t / BitVec.ofNat w b.base ≠ 0 ∧ len ≠ 0 then
        formatLoop b.base len (t / BitVec.ofNat w b.base) (tmp + 1)
          (update mem tmp (digitChar (t.toNat % b.base)))
      else (t / BitVec.ofNat w b.base, tmp + 1, update mem tmp (digitChar (t.toNat % b.base))) := by
  have hlt : t.toNat % b.base < 16 :=
    (Nat.mod_lt _ (Nat.zero_lt_of_lt b.one_lt)).trans_le (Nat.le_of_lt_succ b.lt_seventeen)
  rw [formatLoop, BitVec.toNat_umod, toNat_base hw, intToChar_eq _ hlt]

/-- The digits that are written. If the room ends before them, nothing is written behind it. -/
theorem formatLoop_spec (hw : 16 ≤ w) (len : ℕ) (t : BitVec w) (tmp : ℕ) (mem : TMemory) :
    if (lastDigits b.base t.toNat).length ≤ len + 1 then
      formatLoop b.base (len + 1) t tmp mem = (0, tmp + (lastDigits b.base t.toNat).length,
        mem.write tmp ((lastDigits b.base t.toNat).map digitChar))
    else (formatLoop b.base (len + 1) t tmp mem).1 ≠ 0 ∧
      ∀ i, ¬(tmp ≤ i ∧ i < tmp + (len + 1)) → (formatLoop b.base (len + 1) t tmp mem).2.2 i =
        mem i := by
  have hb := b.one_lt
  have hq := toNat_udiv_base hw b t
  have hstep := formatLoop_succ hw b len t tmp mem
  by_cases h0 : t / BitVec.ofNat w b.base = 0
  · have hdigits : lastDigits b.base t.toNat = [t.toNat % b.base] :=
      lastDigits_of_lt hb (by rw [← hq, h0]; rfl)
    rw [if_neg fun h => h.1 h0, h0] at hstep
    rw [hstep, hdigits, if_pos (by simp), List.map_singleton, ← TMemory.write_cons,
      TMemory.write_nil]
    rfl
  · have hne : t.toNat / b.base ≠ 0 := by
      rw [← hq]
      exact fun h => h0 (BitVec.eq_of_toNat_eq (h.trans toNat_zero.symm))
    have hdigits := lastDigits_succ hb hne
    rw [← hq] at hdigits
    cases len with
    | zero =>
      have hlen :=
        List.length_pos_iff.2 (lastDigits_ne_nil b.base (t / BitVec.ofNat w b.base).toNat)
      rw [if_neg fun h => h.2 rfl] at hstep
      rw [hstep, hdigits, if_neg (by rw [List.length_cons]; omega)]
      exact ⟨h0, fun i hi => update_of_ne (by omega) _ _⟩
    | succ len =>
      have ih := formatLoop_spec hw len (t / BitVec.ofNat w b.base) (tmp + 1)
        (update mem tmp (digitChar (t.toNat % b.base)))
      rw [if_pos ⟨h0, Nat.succ_ne_zero len⟩] at hstep
      rw [hstep, hdigits, List.length_cons, List.map_cons]
      by_cases hfits : (lastDigits b.base (t / BitVec.ofNat w b.base).toNat).length ≤ len + 1
      · rw [if_pos hfits] at ih
        rw [if_pos (Nat.succ_le_succ hfits), ih, TMemory.write_cons, Nat.add_assoc, Nat.add_comm 1]
      · rw [if_neg hfits] at ih
        rw [if_neg fun h => hfits (Nat.le_of_succ_le_succ h)]
        refine ⟨ih.1, fun i hi => (ih.2 i (by omega)).trans ?_⟩
        exact update_of_ne (by omega) _ _

/-- The bytes from `buf` to `tmp` in reverse. -/
theorem swapLoop_apply (buf tmp : ℕ) (mem : TMemory) (i : ℕ) :
    swapLoop buf tmp mem i = if buf ≤ i ∧ i ≤ tmp then mem (buf + tmp - i) else mem i := by
  fun_induction swapLoop buf tmp mem with
  | case1 buf tmp mem h ih =>
    rw [ih]
    by_cases hin : buf + 1 ≤ i ∧ i ≤ tmp - 1
    · rw [if_pos hin, if_pos (by omega), update_of_ne (by omega), update_of_ne (by omega)]
      congr 1
      omega
    · rw [if_neg hin]
      by_cases htmp : i = tmp
      · subst htmp
        rw [update_self, if_pos (by omega)]
        congr 1
        omega
      · rw [update_of_ne htmp]
        by_cases hbuf : i = buf
        · subst hbuf
          rw [update_self, if_pos (by omega)]
          congr 1
          omega
        · rw [update_of_ne hbuf, if_neg (by omega)]
  | case2 buf tmp mem h =>
    split
    · congr 1
      omega
    · rfl

theorem swapLoop_write (mem : TMemory) (buf : ℕ) {bs : List UInt8} (hne : bs ≠ []) :
    swapLoop buf (buf + bs.length - 1) (mem.write buf bs) = mem.write buf bs.reverse := by
  have hpos : 0 < bs.length := List.length_pos_iff.2 hne
  funext i
  rw [swapLoop_apply]
  unfold TMemory.write
  by_cases hbuf : buf ≤ i
  · obtain ⟨k, rfl⟩ := Nat.exists_eq_add_of_le hbuf
    rw [Nat.add_sub_cancel_left, if_pos hbuf, if_pos hbuf]
    by_cases hk : k < bs.length
    · have hmirror : buf + (buf + bs.length - 1) - (buf + k) = buf + (bs.length - 1 - k) := by omega
      rw [if_pos ⟨hbuf, by omega⟩, hmirror, if_pos (Nat.le_add_right _ _), Nat.add_sub_cancel_left,
        List.getD_eq_getElem _ _ (by omega), List.getD_eq_getElem _ _ (by simpa using hk),
        List.getElem_reverse]
    · rw [if_neg (by omega), List.getD_eq_default _ _ (by omega),
        List.getD_eq_default _ _ (by simp; omega)]
  · rw [if_neg fun h => hbuf h.1, if_neg hbuf, if_neg hbuf]

theorem formatUnsigned_spec (hw : 16 ≤ w) (t : BitVec w) (buf len : ℕ) (mem : TMemory) :
    if (lastDigits b.base t.toNat).length ≤ len then
      formatUnsigned b.base t buf len mem = (.ok (lastDigits b.base t.toNat).length,
        mem.write buf ((lastDigits b.base t.toNat).map digitChar).reverse)
    else (∃ e, (formatUnsigned b.base t buf len mem).1 = .error e) ∧
      ∀ i, ¬(buf ≤ i ∧ i < buf + len) → (formatUnsigned b.base t buf len mem).2 i = mem i := by
  have hpos : 0 < (lastDigits b.base t.toNat).length :=
    List.length_pos_iff.2 (lastDigits_ne_nil _ _)
  cases len with
  | zero =>
    rw [if_neg (by omega), formatUnsigned, if_pos rfl]
    exact ⟨⟨_, rfl⟩, fun _ _ => rfl⟩
  | succ len =>
    have hspec := formatLoop_spec (b := b) hw len t buf mem
    rw [formatUnsigned, if_neg (Nat.succ_ne_zero len)]
    split at hspec
    · next hfits =>
      have hne : (lastDigits b.base t.toNat).map digitChar ≠ [] := by
        simpa using lastDigits_ne_nil b.base t.toNat
      have hswap := swapLoop_write mem buf hne
      rw [List.length_map] at hswap
      rw [if_pos hfits, hspec]
      simp only [ne_eq, not_true_eq_false, if_false, hswap, Nat.add_sub_cancel_left]
    · next hfits =>
      rw [if_neg hfits]
      simp only [hspec.1, ne_eq, not_false_eq_true, if_true]
      exact ⟨⟨_, rfl⟩, hspec.2⟩

/-- The number behind a minus, also for the most negative value. -/
theorem toNat_neg_of_neg (hw : 16 ≤ w) {t : BitVec w} (h : t.toInt < 0) :
    (-t).toNat = t.toInt.natAbs := by
  have hpow := two_pow_pred hw
  have hlt := t.isLt
  rw [toInt_eq_toNat_cond] at h ⊢
  rw [toNat_neg]
  split at h
  · omega
  · rw [if_neg ‹_›, Nat.mod_eq_of_lt (by omega)]
    omega

theorem toNat_of_nonneg {t : BitVec w} (h : ¬t.toInt < 0) : t.toNat = t.toInt.natAbs := by
  have hlt := t.isLt
  rw [toInt_eq_toNat_cond] at h ⊢
  split at h
  · rw [if_pos ‹_›]
    omega
  · omega

theorem update_write (mem : TMemory) (buf : ℕ) (c : UInt8) (bs : List UInt8) :
    update (mem.write (buf + 1) bs) buf c = mem.write buf (c :: bs) := by
  rw [← TMemory.write_cons]
  funext i
  by_cases hi : i = buf
  · subst hi
    rw [update_self, TMemory.write, if_neg (by omega), update_self]
  · rw [update_of_ne hi, TMemory.write, TMemory.write, update_of_ne hi]

/-- The digits behind a minus or alone. -/
theorem formatSigned_spec (hw : 16 ≤ w) (t : BitVec w) (buf len : ℕ) (mem : TMemory)
    (text : List UInt8) (htext : text = (if t.toInt < 0 then [45] else []) ++
      ((lastDigits b.base t.toInt.natAbs).map digitChar).reverse) :
    if text.length ≤ len then formatSigned b.base t buf len mem =
      (.ok text.length, mem.write buf text)
    else (∃ e, (formatSigned b.base t buf len mem).1 = .error e) ∧
      ∀ i, ¬(buf ≤ i ∧ i < buf + len) → (formatSigned b.base t buf len mem).2 i = mem i := by
  have hpos : 0 < (lastDigits b.base t.toInt.natAbs).length :=
    List.length_pos_iff.2 (lastDigits_ne_nil _ _)
  by_cases hneg : t.toInt < 0
  · rw [if_pos hneg] at htext
    have hlen : text.length = (lastDigits b.base t.toInt.natAbs).length + 1 := by rw [htext]; simp
    have hspec := formatUnsigned_spec (b := b) hw (-t) (buf + 1) (len - 1) mem
    rw [toNat_neg_of_neg hw hneg] at hspec
    rw [formatSigned, if_pos hneg]
    by_cases hlen2 : len < 2
    · rw [if_neg (by omega), if_pos hlen2]
      exact ⟨⟨_, rfl⟩, fun _ _ => rfl⟩
    · simp only [if_neg hlen2]
      split at hspec
      · next hfits =>
        rw [if_pos (by omega), hspec]
        simp only [hlen]
        rw [update_write, htext]
        rfl
      · next hfits =>
        rw [if_neg (by omega)]
        obtain ⟨⟨e, he⟩, hmem⟩ := hspec
        rcases hres : formatUnsigned b.base (-t) (buf + 1) (len - 1) mem with ⟨r, mem'⟩
        rw [hres] at he hmem
        cases he
        exact ⟨⟨e, rfl⟩, fun i hi => hmem i (by omega)⟩
  · rw [if_neg hneg, List.nil_append] at htext
    have hlen : text.length = (lastDigits b.base t.toInt.natAbs).length := by rw [htext]; simp
    have hspec := formatUnsigned_spec (b := b) hw t buf len mem
    rw [toNat_of_nonneg hneg, ← htext, ← hlen] at hspec
    rw [formatSigned, if_neg hneg]
    exact hspec

end TSelector

/-! ### Numbers on a stream -/

theorem TMemory.map_write (mem : TMemory) (bs : List UInt8) :
    (List.range bs.length).map (mem.write 0 bs) = bs := by
  apply List.ext_getElem (by simp)
  intro i hi hi'
  rw [List.getElem_map, List.getElem_range, TMemory.write, if_pos (Nat.zero_le i), Nat.sub_zero,
    List.getD_eq_getElem _ _ hi']

/-- A number without a sign is written whole; the buffer has room for it. -/
theorem outNumber_unsigned (rank : TIntegralRank) (v : TIntegral.Word ⟨rank, false⟩)
    (mem : TMemory) :
    outNumber ⟨rank, false⟩ v mem = .ok ((lastDigits 10 v.toNat).map digitChar).reverse := by
  have hwidth : rank.width ≤ 64 := by cases rank <;> decide
  have hlen : (lastDigits 10 v.toNat).length ≤ 256 := by
    rw [lastDigits]
    split
    · decide
    · rw [Nat.digits_length_le_iff (by decide)]
      calc v.toNat < 2 ^ rank.width := v.isLt
        _ ≤ 2 ^ 64 := Nat.pow_le_pow_right (by decide) hwidth
        _ ≤ 10 ^ 256 := by norm_num
  have hspec := TSelector.formatUnsigned_spec (b := .ten) rank.width_ge v 0 256 mem
  rw [if_pos (show (lastDigits TBase.ten.base v.toNat).length ≤ 256 from hlen)] at hspec
  have hread := mem.map_write ((lastDigits 10 v.toNat).map digitChar).reverse
  rw [List.length_reverse, List.length_map] at hread
  rw [outNumber, intToString, if_neg Bool.false_ne_true, hspec]
  exact congrArg Except.ok hread

/-! ### There and back -/

section RoundTrip

variable {b : TBase}

theorem digitValue_digitChar : ∀ d < 16, digitValue (digitChar d) = d := by
  decide

theorem lastDigits_lt (b : TBase) (n : ℕ) : ∀ d ∈ lastDigits b.base n, d < b.base := by
  intro d hd
  rw [lastDigits] at hd
  split at hd
  · rw [List.mem_singleton.1 hd]
    exact Nat.zero_lt_of_lt b.one_lt
  · exact Nat.digits_lt_base b.one_lt hd

theorem ofDigits_lastDigits (base n : ℕ) : Nat.ofDigits base (lastDigits base n) = n := by
  rw [lastDigits]
  split
  · next h => rw [h]; rfl
  · exact Nat.ofDigits_digits base n

theorem numeralValue_lastDigits (b : TBase) (n : ℕ) :
    numeralValue b.base ((lastDigits b.base n).map digitChar).reverse = n := by
  have hmap : ((lastDigits b.base n).map digitChar).map digitValue = lastDigits b.base n := by
    rw [List.map_map, List.map_congr_left (g := id), List.map_id]
    intro d hd
    have hlt := lastDigits_lt b n d hd
    exact digitValue_digitChar d (by have := b.lt_seventeen; omega)
  rw [numeralValue, List.map_reverse, List.reverse_reverse, hmap, ofDigits_lastDigits]

theorem value_inRange (ty : TIntegral) (v : ty.Word) : ty.InRange (ty.value v) := by
  obtain ⟨rank, isSigned⟩ := ty
  cases isSigned with
  | true => exact ⟨BitVec.le_toInt v, toInt_lt⟩
  | false =>
    rw [value_unsigned]
    exact ⟨Int.natCast_nonneg _, by exact_mod_cast v.isLt⟩

theorem value_injective (ty : TIntegral) {v v' : ty.Word} (h : ty.value v = ty.value v') :
    v = v' := by
  obtain ⟨rank, isSigned⟩ := ty
  cases isSigned with
  | true => exact BitVec.eq_of_toInt_eq h
  | false => exact BitVec.eq_of_toNat_eq (Int.ofNat.inj h)

theorem denotes_numeral (ty : TIntegral) (b : TBase) (v : ty.Word) :
    Denotes TSign.Single ty b (numeral ty b v) (ty.value v) := by
  refine ⟨⟨decide (ty.value v < 0), false⟩,
    ((lastDigits b.base (ty.value v).natAbs).map digitChar).reverse,
    fun h => Bool.false_ne_true h.2, ?_, ?_, ?_, ?_, ?_, value_inRange ty v⟩
  · intro hneg
    obtain ⟨rank, isSigned⟩ := ty
    cases isSigned with
    | true => rfl
    | false =>
      have hneg : TIntegral.value ⟨rank, false⟩ v < 0 := of_decide_eq_true hneg
      rw [value_unsigned] at hneg
      exact absurd hneg (Int.not_lt.2 (Int.natCast_nonneg _))
  · simp [numeral, TSign.text]
  · simpa using lastDigits_ne_nil b.base (ty.value v).natAbs
  · intro c hc
    obtain ⟨d, hd, rfl⟩ := List.mem_map.1 (List.mem_reverse.1 hc)
    have hlt := lastDigits_lt b _ d hd
    rwa [digitValue_digitChar d (by have := b.lt_seventeen; omega)]
  · rw [numeralValue_lastDigits]
    by_cases hneg : ty.value v < 0
    · simp only [TSign.apply, hneg, decide_true, if_true]
      omega
    · simp only [TSign.apply, hneg, decide_false, Bool.false_eq_true, if_false]
      omega

/-- No numeral of the value is shorter. -/
theorem numeral_length_le {ty : TIntegral} {v : ty.Word} {text : List UInt8}
    (h : Denotes (fun _ => True) ty b text (ty.value v)) :
    (numeral ty b v).length ≤ text.length := by
  obtain ⟨s, ds, -, -, rfl, hne, hds, hval, -⟩ := h
  have habs : (ty.value v).natAbs = numeralValue b.base ds := by
    rw [hval, TSign.apply]
    split <;> simp
  have hdigits : (lastDigits b.base (numeralValue b.base ds)).length ≤ ds.length := by
    rw [lastDigits]
    split
    · exact List.length_pos_iff.2 hne
    · rw [Nat.digits_length_le_iff b.one_lt, numeralValue]
      have hlt := Nat.ofDigits_lt_base_pow_length (l := (ds.map digitValue).reverse) b.one_lt ?_
      · simpa using hlt
      · intro d hd
        obtain ⟨c, hc, rfl⟩ := List.mem_map.1 (List.mem_reverse.1 hd)
        exact hds c hc
  have hsign : (if ty.value v < 0 then [(45 : UInt8)] else []).length ≤ s.text.length := by
    split
    · next hneg =>
      have hminus : s.minus = true := by
        by_contra hs
        rw [hval, TSign.apply, if_neg hs] at hneg
        omega
      simp [TSign.text, hminus]
    · exact Nat.zero_le _
  rw [numeral, habs, List.length_append, List.length_append, List.length_reverse, List.length_map]
  exact Nat.add_le_add hsign hdigits

/-- `IntToString` writes the shortest numeral of the value if there is room for it, and fails
without touching what is outside of the buffer if there is not. The numeral is read as the value. -/
theorem intToString_spec (ty : TIntegral) (b : TBase) (v : ty.Word) (buf len : ℕ) (mem : TMemory) :
    (if (numeral ty b v).length ≤ len then
      intToString ty b v buf len mem = (.ok (numeral ty b v).length, mem.write buf (numeral ty b v))
    else (∃ e, (intToString ty b v buf len mem).1 = .error e) ∧
      ∀ i, ¬(buf ≤ i ∧ i < buf + len) → (intToString ty b v buf len mem).2 i = mem i) ∧
    intFromString ty b (numeral ty b v) = .ok v ∧
    ∀ text, Denotes (fun _ => True) ty b text (ty.value v) →
      (numeral ty b v).length ≤ text.length := by
  refine ⟨?_, ?_, fun _ => numeral_length_le⟩
  · obtain ⟨rank, isSigned⟩ := ty
    have hw := rank.width_ge
    cases isSigned with
    | true => exact TSelector.formatSigned_spec hw v buf len mem _ rfl
    | false =>
      have hspec := TSelector.formatUnsigned_spec (b := b) hw v buf len mem
      have hnum : numeral ⟨rank, false⟩ b v =
          ((lastDigits b.base v.toNat).map digitChar).reverse := by
        rw [numeral, value_unsigned, if_neg (Int.not_lt.2 (Int.natCast_nonneg _))]
        rfl
      have hlen : (numeral ⟨rank, false⟩ b v).length = (lastDigits b.base v.toNat).length := by
        rw [hnum]; simp
      rw [← hnum, ← hlen] at hspec
      exact hspec
  · obtain ⟨s, ds, -, hden⟩ := denotes_numeral ty b v
    obtain ⟨v', hv', heq⟩ := (exists_intFromString_iff ty b _ _).2 ⟨s, ds, trivial, hden⟩
    rw [hv', value_injective ty heq]

end RoundTrip

end Balancer
