import Balancer.Theory.HttpMessage
import Balancer.Util.Duration
import Balancer.Verify.Cast

/-!
# Durations in the configuration

A text of the grammar is read to the end, with its number and its unit in the fields of the parser
(`parsePart_text`). `GetResult` then raises 10 to two powers, and does not return if an exponent is
negative, which is so if a unit is too small for the digits behind the point (`parse_iff`). What is
printed for a duration has six digits behind the point and is read back (`parse_out`).
-/

namespace Balancer

open TDuration RepeatedSquaring TDurationState
open Http11 (ascii)

/-- The suffix of a duration. -/
inductive TimeUnit where
  | none
  | s
  | ms
  | us
  | ns
  deriving DecidableEq, Repr

namespace TimeUnit

def text : TimeUnit → List UInt8
  | none => []
  | s => ascii "s"
  | ms => ascii "ms"
  | us => ascii "us"
  | ns => ascii "ns"

/-- The microseconds of the unit, as a power of 10. -/
def exponent : TimeUnit → ℤ
  | none => 6
  | s => 6
  | ms => 3
  | us => 0
  | ns => -3

end TimeUnit

/-- The number that digits are written for. -/
def decimalValue (ds : List (Fin 10)) : ℕ := Nat.ofDigits 10 (ds.map Fin.val).reverse

def digitByte (d : Fin 10) : UInt8 := 48 + UInt8.ofNat d.val

/-- Digits, then a point and digits if there are any, and a suffix. -/
structure DurationText where
  integer : List (Fin 10)
  fraction : List (Fin 10)
  unit : TimeUnit
  integer_ne : integer ≠ []

namespace DurationText

def text (w : DurationText) : List UInt8 :=
  w.integer.map digitByte ++ (if w.fraction = [] then [] else 46 :: w.fraction.map digitByte) ++
    w.unit.text

/-- What it is in microseconds. -/
def microseconds (w : DurationText) : ℚ :=
  (decimalValue w.integer + decimalValue w.fraction / 10 ^ w.fraction.length) * 10 ^ w.unit.exponent

/-- Without the digits behind the sixth of the fraction. -/
def shortened (w : DurationText) : DurationText := { w with fraction := w.fraction.take 6 }

/-- The whole microseconds; digits behind the sixth of the fraction may be ignored. -/
def Denotes (w : DurationText) (r : UInt64) : Prop :=
  r.toNat = ⌊w.microseconds⌋₊ ∨ r.toNat = ⌊w.shortened.microseconds⌋₊

end DurationText

/-! ### Digits -/

theorem decimalValue_concat (ds : List (Fin 10)) (d : Fin 10) :
    decimalValue (ds ++ [d]) = decimalValue ds * 10 + d.val := by
  simp only [decimalValue, List.map_append, List.map_singleton, List.reverse_append,
    List.reverse_singleton, List.singleton_append, Nat.ofDigits_cons]
  omega

theorem decimalValue_append (ds es : List (Fin 10)) :
    decimalValue (ds ++ es) = decimalValue ds * 10 ^ es.length + decimalValue es := by
  simp only [decimalValue, List.map_append, List.reverse_append, Nat.ofDigits_append,
    List.length_reverse, List.length_map]
  ring

theorem decimalValue_lt (ds : List (Fin 10)) : decimalValue ds < 10 ^ ds.length := by
  have h := Nat.ofDigits_lt_base_pow_length' (b := 8) (l := (ds.map Fin.val).reverse) (by simp)
  rwa [List.length_reverse, List.length_map] at h

theorem isDigit_digitByte (d : Fin 10) : isDigit (digitByte d) = true := by
  revert d
  decide

theorem digitByte_sub (d : Fin 10) : (digitByte d - 48).toUInt64 = UInt64.ofNat d.val := by
  revert d
  decide

theorem ofNat_decimalValue_singleton (d : Fin 10) :
    0 * 10 + (digitByte d - 48).toUInt64 = UInt64.ofNat (decimalValue [d]) := by
  revert d
  decide

theorem ofNat_decimalValue_concat (ds : List (Fin 10)) (d : Fin 10) :
    UInt64.ofNat (decimalValue (ds ++ [d])) =
      UInt64.ofNat (decimalValue ds) * 10 + UInt64.ofNat d.val := by
  rw [decimalValue_concat, UInt64.ofNat_add, UInt64.ofNat_mul]
  rfl

/-! ### The fields of the parser -/

namespace TDurationParser

/-- Inside of the integer, after the digits `ds`. -/
structure InInteger (ds : List (Fin 10)) (p : TDurationParser) : Prop where
  cs : p.cs = .integer
  i : p.i = UInt64.ofNat (decimalValue ds)
  integerPart : p.integerPart = UInt64.ofNat (decimalValue ds)
  multiplierPower : p.multiplierPower = 6
  fractionPart : p.fractionPart = 0
  fractionDigits : p.fractionDigits = 0

/-- Inside of the fraction, after the digits `ds`, of which the first six count. -/
structure InFraction (integer ds : List (Fin 10)) (p : TDurationParser) : Prop where
  cs : p.cs = .fraction (min 6 ds.length)
  i : p.i = UInt64.ofNat (decimalValue (ds.take 6))
  dc : p.dc = UInt32.ofNat (min 6 ds.length)
  integerPart : p.integerPart = UInt64.ofNat (decimalValue integer)
  multiplierPower : p.multiplierPower = 6
  fractionPart : p.fractionPart = p.i.toUInt32
  fractionDigits : p.fractionDigits = p.dc

variable {p : TDurationParser} {ds integer : List (Fin 10)}

theorem step_eq {c : UInt8} {cs : TDurationState} {actions : List TDurationAction}
    (h : p.cs.transition c = some (cs, actions)) :
    p.step c = some { actions.foldl (act c) p with cs } := by
  simp only [step, h]

theorem InInteger.step (h : InInteger ds p) (d : Fin 10) :
    ∃ p', p.step (digitByte d) = some p' ∧ InInteger (ds ++ [d]) p' := by
  have htr : p.cs.transition (digitByte d) = some (.integer, [.updateInt, .integerPart]) := by
    rw [h.cs, transition, if_pos (isDigit_digitByte d)]
  have hi : p.i * 10 + (digitByte d - 48).toUInt64 = UInt64.ofNat (decimalValue (ds ++ [d])) := by
    rw [h.i, digitByte_sub, ofNat_decimalValue_concat]
  exact ⟨_, step_eq htr, rfl, hi, hi, h.multiplierPower, h.fractionPart, h.fractionDigits⟩

theorem InFraction.step (h : InFraction integer ds p) (d : Fin 10) :
    ∃ p', p.step (digitByte d) = some p' ∧ InFraction integer (ds ++ [d]) p' := by
  by_cases hlen : ds.length < 6
  · have htr : p.cs.transition (digitByte d) =
        some (.fraction (ds.length + 1), [.updateInt, .fractionPart]) := by
      rw [h.cs, transition, if_pos (isDigit_digitByte d), Nat.min_eq_right hlen.le, if_pos hlen]
    have hmin : min 6 (ds ++ [d]).length = ds.length + 1 := by
      rw [List.length_append, List.length_singleton]
      omega
    have htake : (ds ++ [d]).take 6 = ds ++ [d] := List.take_of_length_le (by simp; omega)
    have hi : p.i * 10 + (digitByte d - 48).toUInt64 =
        UInt64.ofNat (decimalValue ((ds ++ [d]).take 6)) := by
      rw [h.i, digitByte_sub, htake, ofNat_decimalValue_concat, List.take_of_length_le hlen.le]
    have hdc : p.dc + 1 = UInt32.ofNat (min 6 (ds ++ [d]).length) := by
      rw [h.dc, hmin, Nat.min_eq_right hlen.le, UInt32.ofNat_add]
      rfl
    exact ⟨_, step_eq htr, hmin ▸ rfl, hi, hdc, h.integerPart, h.multiplierPower, rfl, rfl⟩
  · have hle : 6 ≤ ds.length := Nat.le_of_not_lt hlen
    have htr : p.cs.transition (digitByte d) = some (p.cs, []) := by
      rw [h.cs, transition, if_pos (isDigit_digitByte d), Nat.min_eq_left hle,
        if_neg (Nat.lt_irrefl 6)]
    have hmin : min 6 (ds ++ [d]).length = min 6 ds.length := by
      rw [List.length_append, List.length_singleton]
      omega
    have htake : (ds ++ [d]).take 6 = ds.take 6 := List.take_append_of_le_length hle
    refine ⟨p, step_eq htr, ?_⟩
    exact ⟨hmin ▸ h.cs, htake ▸ h.i, hmin ▸ h.dc, h.integerPart, h.multiplierPower, h.fractionPart,
      h.fractionDigits⟩

theorem parsePart_cons {c : UInt8} {input : List UInt8} {p' : TDurationParser}
    (h : p.step c = some p') : p.parsePart (c :: input) = p'.parsePart input := by
  rw [parsePart, List.foldlM_cons, h]
  rfl

theorem parsePart_append {input rest : List UInt8} {p' : TDurationParser}
    (h : p.parsePart input = some p') : p.parsePart (input ++ rest) = p'.parsePart rest := by
  rw [parsePart, List.foldlM_append, ← parsePart, h]
  rfl

/-- Digits that keep an invariant about the digits before. -/
theorem parsePart_digits {I : List (Fin 10) → TDurationParser → Prop}
    (hstep : ∀ ds p d, I ds p → ∃ p', p.step (digitByte d) = some p' ∧ I (ds ++ [d]) p')
    (h : I ds p) (es : List (Fin 10)) :
    ∃ p', p.parsePart (es.map digitByte) = some p' ∧ I (ds ++ es) p' := by
  induction es generalizing ds p with
  | nil => exact ⟨p, rfl, by rwa [List.append_nil]⟩
  | cons e es ih =>
    obtain ⟨p₁, hp₁, h₁⟩ := hstep ds p e h
    obtain ⟨p', hp', h'⟩ := ih h₁
    refine ⟨p', ?_, by rwa [List.append_assoc] at h'⟩
    rw [List.map_cons, parsePart_cons hp₁, hp']

theorem parsePart_integer (hne : integer ≠ []) :
    ∃ p, ({} : TDurationParser).parsePart (integer.map digitByte) = some p ∧
      InInteger integer p := by
  cases integer with
  | nil => exact absurd rfl hne
  | cons d ds =>
    have htr : TDurationState.start.transition (digitByte d) =
        some (.integer, [.clearInt, .updateInt, .integerPart]) :=
      if_pos (isDigit_digitByte d)
    obtain ⟨p₁, hp₁, h₁⟩ : ∃ p₁, ({} : TDurationParser).step (digitByte d) = some p₁ ∧
        InInteger [d] p₁ :=
      ⟨_, step_eq htr, rfl, ofNat_decimalValue_singleton d, ofNat_decimalValue_singleton d, rfl,
        rfl, rfl⟩
    obtain ⟨p, hp, h⟩ := parsePart_digits (I := InInteger) (fun _ _ d h => h.step d) h₁ ds
    exact ⟨p, by rw [List.map_cons, parsePart_cons hp₁, hp], h⟩

theorem InInteger.parsePart_fraction (h : InInteger integer p) (hne : ds ≠ []) :
    ∃ p', p.parsePart (46 :: ds.map digitByte) = some p' ∧ InFraction integer ds p' := by
  cases ds with
  | nil => exact absurd rfl hne
  | cons d ds =>
    have hpoint : p.cs.transition 46 = some (.point, []) := by
      rw [h.cs]
      rfl
    have hp₀ : p.step 46 = some { p with cs := .point } := step_eq hpoint
    have htr : TDurationState.point.transition (digitByte d) =
        some (.fraction 1, [.clearInt, .updateInt, .fractionPart]) := if_pos (isDigit_digitByte d)
    obtain ⟨p₁, hp₁, h₁⟩ : ∃ p₁, TDurationParser.step { p with cs := .point } (digitByte d) =
      some p₁ ∧
        InFraction integer [d] p₁ :=
      ⟨_, step_eq htr, rfl, ofNat_decimalValue_singleton d, rfl, h.integerPart, h.multiplierPower,
        rfl, rfl⟩
    obtain ⟨p', hp', h'⟩ :=
      parsePart_digits (I := InFraction integer) (fun _ _ d h => h.step d) h₁ ds
    refine ⟨p', ?_, h'⟩
    rw [List.map_cons, parsePart_cons hp₀, parsePart_cons hp₁, hp']

/-- The fields that say the number of `w`. -/
structure HasNumber (w : DurationText) (p : TDurationParser) : Prop where
  integerPart : p.integerPart = UInt64.ofNat (decimalValue w.integer)
  fractionPart : p.fractionPart = (UInt64.ofNat (decimalValue (w.fraction.take 6))).toUInt32
  fractionDigits : p.fractionDigits = UInt32.ofNat (min 6 w.fraction.length)

/-- After the number. -/
theorem parsePart_number (w : DurationText) :
    ∃ p, ({} : TDurationParser).parsePart
        (w.integer.map digitByte ++ if w.fraction = [] then [] else
          46 :: w.fraction.map digitByte) = some p ∧
      HasNumber w p ∧ p.multiplierPower = 6 ∧
      (p.cs = .integer ∨ ∃ digits, p.cs = .fraction digits) := by
  obtain ⟨p, hp, h⟩ := parsePart_integer w.integer_ne
  rw [parsePart_append hp]
  by_cases hne : w.fraction = []
  · rw [if_pos hne]
    refine ⟨p, rfl, ⟨h.integerPart, ?_, ?_⟩, h.multiplierPower, .inl h.cs⟩
    · rw [h.fractionPart, hne]
      rfl
    · rw [h.fractionDigits, hne]
      rfl
  · rw [if_neg hne]
    obtain ⟨p', hp', h'⟩ := h.parsePart_fraction hne
    have hnumber : HasNumber w p' :=
      ⟨h'.integerPart, h'.i ▸ h'.fractionPart, h'.dc ▸ h'.fractionDigits⟩
    exact ⟨p', hp', hnumber, h'.multiplierPower, .inr ⟨_, h'.cs⟩⟩

theorem parsePart_unit (hcs : p.cs = .integer ∨ ∃ digits, p.cs = .fraction digits)
    (hpower : p.multiplierPower = 6) (u : TimeUnit) :
    p.parsePart u.text =
      some { p with
        cs := if u = .none then p.cs else .unit, multiplierPower := Int32.ofInt u.exponent } := by
  obtain ⟨cs, i, dc, multiplierPower, integerPart, fractionPart, fractionDigits⟩ := p
  obtain rfl : multiplierPower = 6 := hpower
  obtain rfl | ⟨digits, rfl⟩ : cs = .integer ∨ ∃ digits, cs = .fraction digits := hcs
  · cases u <;> rfl
  · cases u <;> rfl

/-- The whole text. -/
theorem parsePart_text (w : DurationText) :
    ∃ p, ({} : TDurationParser).parsePart w.text = some p ∧ HasNumber w p ∧ p.cs.isFinal = true ∧
      p.multiplierPower = Int32.ofInt w.unit.exponent := by
  obtain ⟨p, hp, hnumber, hpower, hcs⟩ := parsePart_number w
  refine ⟨_, (parsePart_append hp).trans (parsePart_unit hcs hpower w.unit),
    ⟨hnumber.1, hnumber.2, hnumber.3⟩, ?_, rfl⟩
  show (if w.unit = .none then p.cs else .unit).isFinal = true
  split
  · rcases hcs with hcs | ⟨digits, hcs⟩
    · rw [hcs]
      rfl
    · rw [hcs]
      rfl
  · rfl

end TDurationParser

/-! ### The result -/

/-- The digits of the fraction that count. -/
def DurationText.digits (w : DurationText) : ℕ := min 6 w.fraction.length

theorem TimeUnit.toInt_exponent (u : TimeUnit) : (Int32.ofInt u.exponent).toInt = u.exponent := by
  cases u <;> rfl

theorem TimeUnit.toInt_sub (u : TimeUnit) {k : ℕ} (hk : k ≤ 6) :
    ((Int32.ofInt u.exponent).toUInt32 - UInt32.ofNat k).toInt32.toInt = u.exponent - k := by
  interval_cases k <;> cases u <;> rfl

theorem ofNat_pow_ten (n : ℕ) : UInt64.ofNat (10 ^ n) = 10 ^ n := by
  induction n with
  | zero => rfl
  | succ n ih =>
    rw [pow_succ, UInt64.ofNat_mul, ih, pow_succ]
    rfl

namespace DurationText

variable (w : DurationText)

/-- What `GetResult` adds up, without a bound. -/
def sum : ℕ :=
  decimalValue w.integer * 10 ^ w.unit.exponent.toNat +
    decimalValue (w.fraction.take 6) * 10 ^ (w.unit.exponent - w.digits).toNat

theorem toUInt64_fraction : (UInt64.ofNat (decimalValue (w.fraction.take 6))).toUInt32.toUInt64 =
    UInt64.ofNat (decimalValue (w.fraction.take 6)) := by
  have hlt : decimalValue (w.fraction.take 6) < UInt32.size :=
    calc decimalValue (w.fraction.take 6) < 10 ^ (w.fraction.take 6).length := decimalValue_lt _
      _ ≤ 10 ^ 6 :=
        Nat.pow_le_pow_right (by norm_num) (by rw [List.length_take]; exact Nat.min_le_left _ _)
      _ < UInt32.size := by decide
  rw [UInt64.toUInt32_ofNat', UInt32.toUInt64_ofNat' hlt]

theorem digits_le : w.digits ≤ 6 := Nat.min_le_left _ _

/-- What `Parse` does after the text is read. -/
theorem parse_text (fuel : Nat) :
    TDuration.parse fuel w.text =
      (RepeatedSquaring.power fuel (10 : UInt64) w.unit.exponent).bind fun integer =>
        (RepeatedSquaring.power fuel (10 : UInt64) (w.unit.exponent - w.digits)).bind
          fun fraction =>
          let r := UInt64.ofNat (decimalValue w.integer) * integer +
            UInt64.ofNat (decimalValue (w.fraction.take 6)) * fraction
          some (if r = TDuration.Max then .error "error in datetime parsing" else .ok r) := by
  obtain ⟨p, hp, hnumber, hfinal, hpower⟩ := TDurationParser.parsePart_text w
  have hsub : ((Int32.ofInt w.unit.exponent).toUInt32 - p.fractionDigits).toInt32.toInt =
      w.unit.exponent - w.digits := by
    rw [hnumber.fractionDigits]
    exact w.unit.toInt_sub w.digits_le
  simp only [TDuration.parse, parseOr, hp, TDurationParser.getResult, hfinal, if_true,
    durationPower, hsub, hpower, w.unit.toInt_exponent, hnumber.integerPart, hnumber.fractionPart,
    toUInt64_fraction, zero_add]
  cases RepeatedSquaring.power fuel (10 : UInt64) w.unit.exponent with
  | none => rfl
  | some integer =>
    cases RepeatedSquaring.power fuel (10 : UInt64) (w.unit.exponent - w.digits) with
    | none => rfl
    | some fraction => rfl

theorem ofNat_sum : UInt64.ofNat w.sum =
    UInt64.ofNat (decimalValue w.integer) * 10 ^ w.unit.exponent.toNat +
      UInt64.ofNat (decimalValue (w.fraction.take 6)) * 10 ^
        (w.unit.exponent - w.digits).toNat := by
  rw [sum, UInt64.ofNat_add, UInt64.ofNat_mul, UInt64.ofNat_mul, ofNat_pow_ten, ofNat_pow_ten]

/-- `Parse` returns exactly if the unit is not too small for the digits of the fraction. -/
theorem parse_returns_iff (res : Except String UInt64) :
    (∃ fuel, TDuration.parse fuel w.text = some res) ↔ (w.digits : ℤ) ≤ w.unit.exponent ∧
      res = if UInt64.ofNat w.sum = TDuration.Max then .error "error in datetime parsing"
        else .ok (UInt64.ofNat w.sum) := by
  constructor
  · rintro ⟨fuel, h⟩
    rw [parse_text] at h
    obtain ⟨integer, hinteger, h⟩ := Option.bind_eq_some_iff.1 h
    obtain ⟨fraction, hfraction, h⟩ := Option.bind_eq_some_iff.1 h
    obtain ⟨-, rfl⟩ := power_eq_some hinteger
    obtain ⟨hnonneg, rfl⟩ := power_eq_some hfraction
    refine ⟨Int.sub_nonneg.1 hnonneg, ?_⟩
    rw [ofNat_sum]
    exact (Option.some.inj h).symm
  · rintro ⟨hle, rfl⟩
    have hnonneg : 0 ≤ w.unit.exponent - w.digits := Int.sub_nonneg.2 hle
    obtain ⟨k, hinteger⟩ :=
      (power_iff (x := (10 : UInt64))).2 ⟨(Int.natCast_nonneg _).trans hle, rfl⟩
    obtain ⟨l, hfraction⟩ := (power_iff (x := (10 : UInt64))).2 ⟨hnonneg, rfl⟩
    refine ⟨max k l, ?_⟩
    rw [parse_text, power_mono hinteger (le_max_left k l),
      power_mono hfraction (le_max_right k l), ofNat_sum]
    rfl

/-! ### The number of microseconds -/

theorem exponent_le (u : TimeUnit) : u.exponent ≤ 6 := by
  cases u <;> decide

/-- The fraction, in whole microseconds. -/
theorem fraction_div (E : ℕ) (hE : E ≤ 6) (hle : w.digits ≤ E) :
    decimalValue w.fraction * 10 ^ E / 10 ^ w.fraction.length =
      decimalValue (w.fraction.take 6) * 10 ^ (E - w.digits) := by
  rcases Nat.le_total w.fraction.length 6 with hlen | hlen
  · have hdigits : w.digits = w.fraction.length := Nat.min_eq_right hlen
    rw [hdigits] at hle ⊢
    rw [List.take_of_length_le hlen]
    calc decimalValue w.fraction * 10 ^ E / 10 ^ w.fraction.length
        = decimalValue w.fraction * 10 ^ (E - w.fraction.length) * 10 ^ w.fraction.length / 10 ^
          w.fraction.length := by
          rw [Nat.mul_assoc, ← pow_add, Nat.sub_add_cancel hle]
      _ = decimalValue w.fraction * 10 ^ (E - w.fraction.length) :=
        Nat.mul_div_cancel _ (by positivity)
  · have hdigits : w.digits = 6 := Nat.min_eq_left hlen
    obtain rfl : E = 6 := Nat.le_antisymm hE (hdigits ▸ hle)
    have hsplit : decimalValue w.fraction =
        decimalValue (w.fraction.take 6) * 10 ^ (w.fraction.drop 6).length +
          decimalValue (w.fraction.drop 6) := by
      rw [← decimalValue_append, List.take_append_drop]
    have hpow : 10 ^ w.fraction.length = 10 ^ (w.fraction.drop 6).length * 10 ^ 6 := by
      rw [← pow_add, List.length_drop, Nat.sub_add_cancel hlen]
    rw [hdigits, hpow, Nat.mul_div_mul_right _ _ (by positivity), hsplit, Nat.sub_self, pow_zero,
      Nat.mul_one]
    rw [Nat.add_comm, Nat.add_mul_div_right _ _ (by positivity),
      Nat.div_eq_of_lt (decimalValue_lt _), Nat.zero_add]

theorem floor_microseconds (hle : (w.digits : ℤ) ≤ w.unit.exponent) :
    ⌊w.microseconds⌋₊ = w.sum := by
  obtain ⟨E, hE⟩ := Int.eq_ofNat_of_zero_le ((Int.natCast_nonneg _).trans hle)
  have hmicro : w.microseconds =
      (((decimalValue w.integer * 10 ^ w.fraction.length + decimalValue w.fraction) * 10 ^ E : ℕ) :
        ℚ) / ((10 ^ w.fraction.length : ℕ) : ℚ) := by
    rw [microseconds, hE, zpow_natCast]
    push_cast
    field_simp
  have hsum : w.sum = decimalValue w.integer * 10 ^ E + decimalValue (w.fraction.take 6) * 10 ^
      (E - w.digits) := by
    rw [sum, hE, Int.toNat_natCast, ← Int.toNat_sub]
  have hbound : E ≤ 6 := by
    have h := exponent_le w.unit
    omega
  rw [hmicro, Nat.floor_div_eq_div, hsum, ← w.fraction_div E hbound (by omega), Nat.add_mul,
    Nat.mul_right_comm, Nat.add_comm, Nat.add_mul_div_right _ _ (by positivity), Nat.add_comm]

theorem microseconds_nonneg : 0 ≤ w.microseconds := by
  unfold microseconds
  positivity

theorem toNat_ofNat_sum (hfits : w.microseconds < 2 ^ 64) (hle : (w.digits : ℤ) ≤ w.unit.exponent) :
    (UInt64.ofNat w.sum).toNat = ⌊w.microseconds⌋₊ := by
  have hlt : ⌊w.microseconds⌋₊ < 2 ^ 64 :=
    (Nat.floor_lt w.microseconds_nonneg).2 (by exact_mod_cast hfits)
  rw [w.floor_microseconds hle] at hlt ⊢
  exact UInt64.toNat_ofNat_of_lt' hlt

/-- A duration that fits into 64 bits is returned, in whole microseconds, exactly if its unit is not
too small for the digits of the fraction and it is not the value that stands for an error. -/
theorem parse_iff (w : DurationText) (hfits : w.microseconds < 2 ^ 64) :
    (∃ fuel r, TDuration.parse fuel w.text = some (.ok r) ∧ w.Denotes r) ↔
      (w.digits : ℤ) ≤ w.unit.exponent ∧ ⌊w.microseconds⌋₊ ≠ 2 ^ 64 - 1 := by
  constructor
  · rintro ⟨fuel, r, hparse, -⟩
    obtain ⟨hle, hres⟩ := (w.parse_returns_iff _).1 ⟨fuel, hparse⟩
    refine ⟨hle, fun hfloor => ?_⟩
    have hmax : UInt64.ofNat w.sum = TDuration.Max :=
      UInt64.toNat_inj.1 ((w.toNat_ofNat_sum hfits hle).trans hfloor)
    rw [if_pos hmax] at hres
    cases hres
  · rintro ⟨hle, hfloor⟩
    have hmax : UInt64.ofNat w.sum ≠ TDuration.Max := by
      intro h
      apply hfloor
      rw [← w.toNat_ofNat_sum hfits hle, h]
      rfl
    obtain ⟨fuel, hparse⟩ := (w.parse_returns_iff _).2 ⟨hle, rfl⟩
    rw [if_neg hmax] at hparse
    exact ⟨fuel, _, hparse, .inl (w.toNat_ofNat_sum hfits hle)⟩

theorem parse_milliseconds :
    ∃ fuel r, TDuration.parse fuel (ascii "1.5ms") = some (.ok r) ∧
      (⟨[1], [5], .ms, List.cons_ne_nil _ _⟩ : DurationText).Denotes r := by
  have hle : ((⟨[1], [5], .ms, List.cons_ne_nil _ _⟩ : DurationText).digits : ℤ) ≤
      TimeUnit.ms.exponent := by decide
  refine (parse_iff ⟨[1], [5], .ms, List.cons_ne_nil _ _⟩ ?_).2 ⟨hle, ?_⟩
  · norm_num [microseconds, decimalValue, TimeUnit.exponent]
  · rw [floor_microseconds _ hle]
    decide

/-- No number of turns is enough for the powers of a nanosecond. -/
theorem parse_nanosecond : ¬∃ fuel res, TDuration.parse fuel (ascii "1ns") = some res := by
  rintro ⟨fuel, res, h⟩
  have hle := ((⟨[1], [], .ns, List.cons_ne_nil _ _⟩ : DurationText).parse_returns_iff res).1
    ⟨fuel, h⟩
  exact absurd hle.1 (by decide)

end DurationText

/-! ### What is printed -/

theorem digitChar_eq : ∀ d : Fin 10, digitChar d.val = digitByte d := by
  decide

theorem exists_digits {l : List ℕ} (h : ∀ d ∈ l, d < 10) :
    ∃ ds : List (Fin 10), ds.map digitByte = l.map digitChar ∧
      decimalValue ds = Nat.ofDigits 10 l.reverse := by
  lift l to List (Fin 10) using h
  refine ⟨l, ?_, rfl⟩
  rw [List.map_map]
  exact List.map_congr_left fun d _ => (digitChar_eq d).symm

theorem decimalValue_replicate (k : ℕ) : decimalValue (List.replicate k 0) = 0 := by
  rw [decimalValue, List.map_replicate, List.reverse_replicate]
  induction k with
  | zero => rfl
  | succ k ih =>
    rw [List.replicate_succ, Nat.ofDigits_cons, ih]
    rfl

/-- The seconds are printed as digits. -/
theorem outNumber_digits (v : UInt64) (mem : TMemory) :
    ∃ ds : List (Fin 10), outNumber ⟨.longLong, false⟩ v.toBitVec mem = .ok (ds.map digitByte) ∧
      ds ≠ [] ∧
      decimalValue ds = v.toNat := by
  have hlt : ∀ d ∈ (lastDigits 10 v.toNat).reverse, d < 10 := fun d hd =>
    lastDigits_lt .ten v.toNat d (List.mem_reverse.1 hd)
  obtain ⟨ds, htext, hvalue⟩ := exists_digits hlt
  rw [List.map_reverse] at htext
  refine ⟨ds, (outNumber_unsigned .longLong v.toBitVec mem).trans (congrArg Except.ok htext.symm),
    ?_, ?_⟩
  · rintro rfl
    have hnil : lastDigits 10 v.toNat = [] := by simpa using htext.symm
    exact lastDigits_ne_nil 10 v.toNat hnil
  · rw [hvalue, List.reverse_reverse, ofDigits_lastDigits]

/-- The microseconds of a second are printed as six digits. -/
theorem printf06d_digits {n : Int32} (hn : 0 ≤ n.toInt) (hlt : n.toInt < 10 ^ 6) :
    ∃ ds : List (Fin 10), printf06d n = ds.map digitByte ∧ ds.length = 6 ∧
      (decimalValue ds : ℤ) = n.toInt := by
  obtain ⟨k, hk⟩ := Int.eq_ofNat_of_zero_le hn
  have hk6 : k < 10 ^ 6 := by omega
  have hdigits : ∀ d ∈ (Nat.digits 10 k).reverse, d < 10 := fun d hd =>
    Nat.digits_lt_base (by decide) (List.mem_reverse.1 hd)
  obtain ⟨ds, htext, hvalue⟩ := exists_digits hdigits
  have hlength : ds.length = (Nat.digits 10 k).length := by simpa using congrArg List.length htext
  have hle : ds.length ≤ 6 := by
    rw [hlength, Nat.digits_length_le_iff (by decide)]
    exact hk6
  have hneg : ¬n < 0 := by
    rw [Int32.lt_iff_toInt_lt]
    exact Int.not_lt.2 hn
  refine ⟨List.replicate (6 - ds.length) 0 ++ ds, ?_, ?_, ?_⟩
  · have hmap : (Nat.digits 10 k).reverse.map (fun d => UInt8.ofNat (48 + d)) =
        ds.map digitByte := by
      rw [htext]
      refine List.map_congr_left fun d hd => ?_
      rw [digitChar, if_pos (hdigits d hd)]
    simp only [printf06d, if_neg hneg, hk, Int.natAbs_natCast, hmap]
    simp only [List.nil_append, List.length_nil, Nat.sub_zero, List.length_map, List.map_append,
      List.map_replicate]
    rfl
  · rw [List.length_append, List.length_replicate]
    omega
  · rw [decimalValue_append, decimalValue_replicate, hvalue, List.reverse_reverse,
      Nat.ofDigits_digits, hk]
    simp

theorem toNat_seconds (d : UInt64) : (seconds d).toNat = d.toNat / 1000000 := by
  rw [seconds, milliSeconds, microSeconds, UInt64.toNat_div, UInt64.toNat_div]
  exact Nat.div_div_eq_div_mul d.toNat 1000 1000

theorem toInt_microSecondsOfSecond (d : UInt64) :
    (microSecondsOfSecond d).toInt32.toInt = (d.toNat % 1000000 : ℕ) := by
  have hlt : d.toNat % 1000000 < 1000000 := Nat.mod_lt _ (by decide)
  have hnat : (microSecondsOfSecond d).toNat = d.toNat % 1000000 := by
    rw [microSecondsOfSecond, microSeconds, UInt64.toNat_toUInt32, UInt64.toNat_mod]
    exact Nat.mod_eq_of_lt (by omega : d.toNat % 1000000 < 2 ^ 32)
  rw [← hnat] at hlt ⊢
  have hbv : (microSecondsOfSecond d).toInt32.toInt =
      (microSecondsOfSecond d).toBitVec.toInt := rfl
  rw [hbv, BitVec.toInt_eq_toNat_of_lt]
  · rfl
  · show 2 * (microSecondsOfSecond d).toNat < 2 ^ 32
    omega

/-- What is printed for a duration is read back as it, unless it is the one that stands for an
error. -/
theorem parse_out (d : UInt64) (mem : TMemory) (more : ℕ) :
    ∃ text, TDuration.out d mem = .ok text ∧ TDuration.parse (2 + more) text =
      some (if d = TDuration.Max then .error "error in datetime parsing" else .ok d) := by
  obtain ⟨integer, hout, hne, hinteger⟩ := outNumber_digits (seconds d) mem
  have hmicro := toInt_microSecondsOfSecond d
  obtain ⟨fraction, hprint, hlength, hfraction⟩ :=
    printf06d_digits (n := (microSecondsOfSecond d).toInt32) (by omega) (by omega)
  have hfne : fraction ≠ [] := by
    rintro rfl
    cases hlength
  let w : DurationText := ⟨integer, fraction, .s, hne⟩
  have hdigits : w.digits = 6 := by
    show min 6 fraction.length = 6
    rw [hlength, min_self]
  have hsum : UInt64.ofNat (decimalValue integer) * 1000000 +
      UInt64.ofNat (decimalValue (fraction.take 6)) * 1 = d := by
    have htake : fraction.take 6 = fraction := List.take_of_length_le hlength.le
    have hvalue : decimalValue integer * 1000000 + decimalValue fraction = d.toNat := by
      rw [toNat_seconds] at hinteger
      omega
    rw [htake, mul_one, show (1000000 : UInt64) = UInt64.ofNat 1000000 from rfl, ← UInt64.ofNat_mul,
      ← UInt64.ofNat_add, hvalue, UInt64.ofNat_toNat]
  refine ⟨w.text, ?_, ?_⟩
  · have htext : w.text = integer.map digitByte ++ [46] ++ fraction.map digitByte ++ [115] := by
      show integer.map digitByte ++ (if fraction = [] then [] else 46 :: fraction.map digitByte) ++
          [115] = _
      rw [if_neg hfne]
      simp
    rw [TDuration.out, hout, hprint, htext]
    rfl
  · have hinteger : RepeatedSquaring.power 2 (10 : UInt64) 6 = some 1000000 := by decide
    have hfraction : RepeatedSquaring.power 2 (10 : UInt64) 0 = some 1 := rfl
    have hexponent : w.unit.exponent - w.digits = 0 := by
      rw [hdigits]
      rfl
    rw [w.parse_text, hexponent, show w.unit.exponent = 6 from rfl,
      power_mono hinteger (Nat.le_add_right 2 more),
      power_mono hfraction (Nat.le_add_right 2 more)]
    show some (if UInt64.ofNat (decimalValue integer) * 1000000 +
      UInt64.ofNat (decimalValue (fraction.take 6)) * 1 = TDuration.Max then _ else Except.ok _) = _
    rw [hsum]
end Balancer
