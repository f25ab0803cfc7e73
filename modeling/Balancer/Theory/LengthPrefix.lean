import Mathlib

/-!
# Blocks of length-prefixed strings

A block is a count and that many pairs of strings, each with its length in front. Counts and lengths
are written in words of a fixed width, so that a number is known up to a modulus only. A block is
decoded to the pairs that were encoded, at the place where it ends, exactly if its count and all its
lengths are below the modulus (`decodeBlock_encodeBlock_iff`).
-/

namespace LengthPrefix

/-- A word of `width` elements that holds a number up to `bound`. -/
structure Word (β : Type*) where
  width : ℕ
  bound : ℕ
  bound_pos : 0 < bound
  write : ℕ → List β
  read : List β → ℕ
  length_write : ∀ n, (write n).length = width
  read_write : ∀ n, read (write n) = n % bound

variable {β : Type*} (w : Word β)

/-! ### Numbers and strings -/

def decodeNat (xs : List β) : Option (ℕ × List β) :=
  if w.width ≤ xs.length then some (w.read (xs.take w.width), xs.drop w.width) else none

def takeString (n : ℕ) (xs : List β) : Option (List β × List β) :=
  if n ≤ xs.length then some (xs.take n, xs.drop n) else none

def encodeString (s : List β) : List β := w.write s.length ++ s

def decodeString (xs : List β) : Option (List β × List β) :=
  (decodeNat w xs).bind fun p => takeString p.1 p.2

variable {w} {s xs : List β} {fs : List (List β × List β)}

theorem decodeNat_write (n : ℕ) (xs : List β) :
    decodeNat w (w.write n ++ xs) = some (n % w.bound, xs) := by
  have hlen := w.length_write n
  rw [decodeNat, if_pos (by simp [hlen]), List.take_left' hlen, List.drop_left' hlen, w.read_write]

theorem decodeString_encodeString (s xs : List β) :
    decodeString w (encodeString w s ++ xs) =
      some (s.take (s.length % w.bound), s.drop (s.length % w.bound) ++ xs) := by
  have hle : s.length % w.bound ≤ s.length := Nat.mod_le ..
  rw [decodeString, encodeString, List.append_assoc, decodeNat_write, Option.bind_some, takeString,
    if_pos (hle.trans (by simp)), List.take_append_of_le_length hle,
    List.drop_append_of_le_length hle]

theorem decodeString_of_lt (hs : s.length < w.bound) (xs : List β) :
    decodeString w (encodeString w s ++ xs) = some (s, xs) := by
  rw [decodeString_encodeString, Nat.mod_eq_of_lt hs, List.take_length, List.drop_length,
    List.nil_append]

/-- A string that is decoded as itself had room for its length. -/
theorem length_lt_of_decodeString {ys : List β}
    (h : decodeString w (encodeString w s ++ xs) = some (s, ys)) : s.length < w.bound := by
  rw [decodeString_encodeString] at h
  have hs : s.take (s.length % w.bound) = s := congrArg Prod.fst (Option.some.inj h)
  have hlt : s.length % w.bound < w.bound := Nat.mod_lt _ w.bound_pos
  have hlen := congrArg List.length hs
  rw [List.length_take] at hlen
  omega

/-! ### Pairs -/

variable (w)

def encodeField (p : List β × List β) : List β := encodeString w p.1 ++ encodeString w p.2

def decodeField (xs : List β) : Option ((List β × List β) × List β) :=
  (decodeString w xs).bind fun p => (decodeString w p.2).map fun q => ((p.1, q.1), q.2)

def decodeFields : ℕ → List β → Option (List (List β × List β) × List β)
  | 0, xs => some ([], xs)
  | n + 1, xs =>
    (decodeField w xs).bind fun p => (decodeFields n p.2).map fun q => (p.1 :: q.1, q.2)

def encodeBlock (fs : List (List β × List β)) : List β :=
  w.write fs.length ++ fs.flatMap (encodeField w)

def decodeBlock (xs : List β) : Option (List (List β × List β) × List β) :=
  (decodeNat w xs).bind fun p => decodeFields w p.1 p.2

/-- Both lengths have room in a word. -/
def FieldFits (p : List β × List β) : Prop := p.1.length < w.bound ∧ p.2.length < w.bound

instance (p : List β × List β) : Decidable (FieldFits w p) := inferInstanceAs (Decidable (_ ∧ _))

variable {w}

theorem decodeField_of_fits {p : List β × List β} (hp : FieldFits w p) (xs : List β) :
    decodeField w (encodeField w p ++ xs) = some (p, xs) := by
  rw [decodeField, encodeField, List.append_assoc, decodeString_of_lt hp.1, Option.bind_some,
    decodeString_of_lt hp.2, Option.map_some]

theorem fits_of_decodeField {p : List β × List β} {ys : List β}
    (h : decodeField w (encodeField w p ++ xs) = some (p, ys)) : FieldFits w p := by
  rw [decodeField, encodeField, List.append_assoc] at h
  obtain ⟨⟨s, zs⟩, h₁, h'⟩ := Option.bind_eq_some_iff.1 h
  obtain ⟨⟨t, us⟩, h₂, heq⟩ := Option.map_eq_some_iff.1 h'
  obtain rfl : (s, t) = p := congrArg Prod.fst heq
  have hs : s.length < w.bound := length_lt_of_decodeString h₁
  -- the first string has room, so the second one is decoded from its own place
  rw [decodeString_of_lt hs] at h₁
  obtain rfl : encodeString w t ++ xs = zs := congrArg Prod.snd (Option.some.inj h₁)
  exact ⟨hs, length_lt_of_decodeString h₂⟩

theorem length_of_decodeFields {n : ℕ} {ys : List β} (h : decodeFields w n xs = some (fs, ys)) :
    fs.length = n := by
  induction n generalizing xs fs with
  | zero =>
    cases h
    rfl
  | succ n ih =>
    obtain ⟨p, -, hp⟩ := Option.bind_eq_some_iff.1 h
    obtain ⟨q, hq, heq⟩ := Option.map_eq_some_iff.1 hp
    cases heq
    rw [List.length_cons, ih hq]

/-- Pairs that are decoded as themselves fit, and the first one that does not fit is decoded as
another. -/
theorem decodeFields_iff (fs : List (List β × List β)) (xs : List β) :
    decodeFields w fs.length (fs.flatMap (encodeField w) ++ xs) = some (fs, xs) ↔
      ∀ p ∈ fs, FieldFits w p := by
  induction fs with
  | nil => simp [decodeFields]
  | cons p fs ih =>
    rw [List.forall_mem_cons, ← ih, List.length_cons, decodeFields, List.flatMap_cons,
      List.append_assoc]
    constructor
    · intro h
      obtain ⟨⟨p', ys⟩, hp, hq⟩ := Option.bind_eq_some_iff.1 h
      obtain ⟨⟨fs', zs⟩, hfs, heq⟩ := Option.map_eq_some_iff.1 hq
      cases heq
      have hfits : FieldFits w p' := fits_of_decodeField hp
      rw [decodeField_of_fits hfits] at hp
      cases hp
      exact ⟨hfits, hfs⟩
    · rintro ⟨hfits, h⟩
      rw [decodeField_of_fits hfits, Option.bind_some, h]
      rfl

theorem decodeBlock_encodeBlock_iff (fs : List (List β × List β)) (xs : List β) :
    decodeBlock w (encodeBlock w fs ++ xs) = some (fs, xs) ↔
      fs.length < w.bound ∧ ∀ p ∈ fs, FieldFits w p := by
  rw [decodeBlock, encodeBlock, List.append_assoc, decodeNat_write, Option.bind_some]
  constructor
  · intro h
    have hlen := length_of_decodeFields h
    have hlt : fs.length < w.bound := hlen ▸ Nat.mod_lt _ w.bound_pos
    rw [Nat.mod_eq_of_lt hlt] at h
    exact ⟨hlt, (decodeFields_iff fs xs).1 h⟩
  · rintro ⟨hlt, h⟩
    rw [Nat.mod_eq_of_lt hlt]
    exact (decodeFields_iff fs xs).2 h

end LengthPrefix
