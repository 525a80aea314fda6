import Mathlib
import TensorToolchain.Number.Scalar

/-!
# The bits of floating-point numbers

A number that is not a NaN is known by its bits: a sign, eleven bits of exponent and fifty-two of
mantissa. Finite numbers are made from the bits of their magnitude, and negated by the bit of their
sign.
-/

namespace TensorToolchain.Number

open Nat

open Float.Model Float.Model.UnpackedFloat UnpackedFloat Format BitVec

variable {n : Nat} {s : Sign} {x y : Float} {d : Dyadic}

lemma infinityBits_eq : infinityBits = 2047 * 2 ^ 52 := rfl

/-! ### Parts -/

lemma toNat_packComponents (s : Sign) (e : BitVec 11) (m : BitVec 52) : (packComponents binary64 s e m).toNat =
      s.toBitVec.toNat * 2 ^ 63 + e.toNat * 2 ^ 52 + m.toNat := by
  have he := e.isLt
  have hm := m.isLt
  rw [packComponents, toNat_append, toNat_append,
    ← shiftLeft_add_eq_or_of_lt hm, ← shiftLeft_add_eq_or_of_lt he, Nat.shiftLeft_eq]
  omega

variable {b : BitVec binary64.numBits}

lemma toNat_unpackExponent : (unpackExponent b).toNat = b.toNat / 2 ^ 52 % 2048 := by
  change (b.toNat >>> 52) % 2 ^ 11 = _
  rw [shiftRight_eq_div_pow]

lemma toNat_unpackMantissa : (unpackMantissa b).toNat = b.toNat % 2 ^ 52 := by
  change (b.toNat >>> 0) % 2 ^ 52 = _
  rw [shiftRight_zero]

lemma toNat_unpackSign : (Sign.ofBitVec (unpackSign b)).toBitVec.toNat = b.toNat / 2 ^ 63 := by
  have hlt : b.toNat < 2 ^ 64 := b.isLt
  have hbit : (unpackSign b).toNat = b.toNat / 2 ^ 63 := by
    change (b.toNat >>> 63) % 2 ^ 1 = _
    omega
  rw [Sign.ofBitVec]
  split_ifs with hz
  · rw [hz] at hbit
    exact hbit
  · have hpos : (unpackSign b).toNat ≠ 0 := fun h => hz (eq_of_toNat_eq h)
    change 1 = _
    omega

lemma toNat_one_append (m : BitVec 52) : (1#1 ++ m).toNat = 2 ^ 52 + m.toNat := by
  rw [toNat_append, ← shiftLeft_add_eq_or_of_lt m.isLt]
  rfl

/-- The finite number of given parts; the mantissa has a leading bit unless the exponent is
least. -/
def ofParts (s : Sign) (e : BitVec 11) (m : BitVec 52) : Float.Model.UnpackedFloat :=
  if e = 0#11 then
    if h : m = 0#52 then .zero s
    else .finite s m.toNat (-1074) (by simpa [toNat_pos, pos_iff_ne_zero])
  else .finite s (1#1 ++ m).toNat ((e.toNat : Int) - 1075) (by rw [toNat_one_append]; omega)

lemma unpack_eq_ofParts (h : unpackExponent b ≠ -1#11) : unpack binary64 b =
      ofParts (.ofBitVec (unpackSign b)) (unpackExponent b) (unpackMantissa b) := by
  rw [UnpackedFloat.unpack, ofParts]
  simp only [if_neg h]
  split
  · rename_i hz
    split
    · rfl
    · simp only [hz]
      rfl
  · rfl

lemma neg_ofParts (s : Sign) (e : BitVec 11) (m : BitVec 52) : (ofParts s e m).neg = ofParts (-s) e m := by
  rw [ofParts, ofParts]
  split
  · split <;> rfl
  · rfl

lemma pack_ofParts (s : Sign) {e : BitVec 11} (he : e ≠ -1#11) (m : BitVec 52) :
    pack binary64 (ofParts s e m) = packComponents binary64 s e m := by
  have hm := m.isLt
  have hlt : e.toNat < 2047 := by
    have hne : e.toNat ≠ 2047 := fun h => he (eq_of_toNat_eq h)
    omega
  rw [ofParts]
  split
  · rename_i hz
    split
    · rename_i hm
      rw [hz, hm]
      rfl
    · rename_i hne
      have hpos : m.toNat ≠ 0 := fun h => hne (eq_of_toNat_eq h)
      have hlog : m.toNat.log2 < 52 := (log2_lt hpos).2 hm
      have hbt : binary64.mantissaBits = 53 := rfl
      rw [UnpackedFloat.pack, hz]
      rw [if_neg (by decide), if_neg (by omega), ofNat_toNat, setWidth_eq]
  · have hlog : (1#1 ++ m).toNat.log2 = 52 := by
      rw [toNat_one_append, log2_eq_iff (by omega)]
      omega
    have hbs : ((e.toNat : Int) - 1075 + (binary64.exponentBias : Int) +
        (binary64.mantissaBitsWithoutImplicit : Int)).toNat = e.toNat := by
      change ((e.toNat : Int) - 1075 + 1023 + 52).toNat = _
      omega
    have hbt : binary64.mantissaBits = 53 := rfl
    have hmn : .ofNat 52 (1#1 ++ m).toNat = m := by
      refine eq_of_toNat_eq ?_
      rw [toNat_ofNat, toNat_one_append]
      omega
    rw [UnpackedFloat.pack]
    simp only [hbs, hbt, hlog, hmn]
    rw [if_neg (by omega), if_pos trivial, ofNat_toNat, setWidth_eq]

lemma toNat_pack_unpack (h : unpackExponent b ≠ -1#11) : (pack binary64 (unpack binary64 b)).toNat = b.toNat := by
  rw [unpack_eq_ofParts h, pack_ofParts _ h, toNat_packComponents, toNat_unpackSign, toNat_unpackExponent,
    toNat_unpackMantissa]
  omega

lemma toNat_pack_neg_unpack (h : unpackExponent b ≠ -1#11) (hsg : b.toNat < 2 ^ 63) :
    (pack binary64 (unpack binary64 b).neg).toNat = 2 ^ 63 + b.toNat := by
  have hz := (toNat_unpackSign).trans (div_eq_of_lt hsg)
  have hneg : (-Sign.ofBitVec (unpackSign b)).toBitVec.toNat = 1 := by
    cases hs : Sign.ofBitVec _ with
    | positive => rfl
    | negative =>
      rw [hs] at hz
      cases hz
  rw [unpack_eq_ofParts h, neg_ofParts, pack_ofParts _ h, toNat_packComponents, toNat_unpackExponent,
    toNat_unpackMantissa]
  omega

/-! ### Numbers -/

/-- The bits of a number, to be taken apart. -/
abbrev packedBits (n : UInt64) : BitVec binary64.numBits := n.toBitVec

lemma eq_of_toBits_eq (h : x.toBits.toNat = y.toBits.toNat) : x = y := by
  cases x with
  | ofModel x =>
    cases y with
    | ofModel y =>
      cases x with
      | mk x _ =>
        cases y with
        | mk y _ =>
          obtain rfl : x = y := UInt64.toNat_inj.1 h
          rfl

lemma toNat_ofNat_of_lt (h : n < infinityBits) : (UInt64.ofNat n).toNat = n := by
  rw [UInt64.toNat_ofNat']
  rw [infinityBits_eq] at h
  omega

lemma unpackExponent_ne {n : UInt64} (h : n.toNat < infinityBits) : unpackExponent (packedBits n) ≠ -1#11 := by
  intro heq
  have hnat := toNat_unpackExponent.symm.trans (congrArg BitVec.toNat heq)
  change n.toNat / 2 ^ 52 % 2048 = 2047 at hnat
  rw [infinityBits_eq] at h
  omega

lemma toNat_toBits_ofBits (h : n < infinityBits) : (Float.ofBits (.ofNat n)).toBits.toNat = n := by
  have hn := toNat_ofNat_of_lt h
  exact (toNat_pack_unpack (unpackExponent_ne (hn.symm ▸ h))).trans hn

/-- The bits of the number that is made from the bits of a magnitude and negated. -/
lemma toNat_toBits_neg_ofBits (h : n < infinityBits) : (-Float.ofBits (.ofNat n)).toBits.toNat = 2 ^ 63 + n := by
  have hbt := toNat_toBits_ofBits h
  refine (toNat_pack_neg_unpack (unpackExponent_ne (hbt.symm ▸ h)) ?_).trans (congrArg _ hbt)
  change (Float.ofBits (.ofNat n)).toBits.toNat < _
  rw [infinityBits_eq] at h
  omega

/-! ### Numbers that are not finite -/

lemma finite_ofParts (s : Sign) (e : BitVec 11) (m : BitVec 52) :
    (ofParts s e m).isNaN = false ∧ (ofParts s e m).isInf = false := by
  rw [ofParts]
  split
  · split <;> exact ⟨rfl, rfl⟩
  · exact ⟨rfl, rfl⟩

lemma unpack_of_exponent_eq (h : unpackExponent b = -1#11) : unpack binary64 b =
    if unpackMantissa b = 0#52 then .infinity (.ofBitVec (unpackSign b)) else .notANumber := by
  rw [UnpackedFloat.unpack]
  simp only [if_pos h]

lemma eq_of_isNaN (hx : x.isNaN) (hy : y.isNaN) : x = y := by
  have hbt : ∀ z : Float, z.isNaN → z.toBits.toBitVec = packedNaN binary64 := by
    intro z hz
    change (unpack binary64 z.toBits.toBitVec).isNaN = true at hz
    by_cases h : unpackExponent (packedBits z.toBits) = -1#11
    · rw [unpack_of_exponent_eq h] at hz
      split_ifs at hz with hmn
      · cases hz
      · exact z.toModel.valid.eq_packedNaN h hmn
    · rw [unpack_eq_ofParts h, (finite_ofParts _ _ _).1] at hz
      cases hz
  refine eq_of_toBits_eq ?_
  change x.toBits.toBitVec.toNat = y.toBits.toBitVec.toNat
  rw [hbt x hx, hbt y hy]

lemma exists_unpack_of_isInf (h : x.isInf) : ∃ s, x.toModel.unpack = .infinity s := by
  change x.toModel.unpack.isInf = true at h
  cases hx : x.toModel.unpack with
  | infinity s => exact ⟨s, rfl⟩
  | notANumber => rw [hx] at h; cases h
  | zero s => rw [hx] at h; cases h
  | finite s m e _ => rw [hx] at h; cases h

lemma toBits_of_infinite (h : x.toModel.unpack = .infinity s) :
    x.toBits.toNat = s.toBitVec.toNat * 2 ^ 63 + infinityBits := by
  change unpack binary64 x.toBits.toBitVec = .infinity s at h
  by_cases hexp : unpackExponent (packedBits x.toBits) = -1#11
  · rw [unpack_of_exponent_eq hexp] at h
    split at h
    · rename_i hmn
      have hexp := toNat_unpackExponent.symm.trans (congrArg BitVec.toNat hexp)
      have hmn := toNat_unpackMantissa.symm.trans (congrArg BitVec.toNat hmn)
      have hsg : s.toBitVec.toNat = x.toBits.toNat / 2 ^ 63 := by
        cases h
        exact toNat_unpackSign
      change x.toBits.toNat / 2 ^ 52 % 2048 = 2047 at hexp
      change x.toBits.toNat % 2 ^ 52 = 0 at hmn
      rw [infinityBits_eq]
      omega
    · cases h
  · have hinf := (finite_ofParts (.ofBitVec (unpackSign (packedBits x.toBits)))
      (unpackExponent (packedBits x.toBits)) (unpackMantissa (packedBits x.toBits))).2
    rw [← unpack_eq_ofParts hexp, h] at hinf
    cases hinf

lemma lt_zero_of_infinite (h : x.toModel.unpack = .infinity s) : x < 0.0 ↔ s = .negative := by
  have hz : (0.0 : Float).toModel.unpack = .zero .positive := rfl
  change decide (x.toModel.unpack.lt (0.0 : Float).toModel.unpack) ↔ _
  rw [decide_eq_true_iff, h]
  cases s with
  | positive => exact ⟨nofun, nofun⟩
  | negative => exact ⟨fun _ => rfl, fun _ => rfl⟩

lemma eq_of_isInf (hx : x.isInf) (hy : y.isInf) (hsg : x < 0.0 ↔ y < 0.0) : x = y := by
  obtain ⟨s, hs⟩ := exists_unpack_of_isInf hx
  obtain ⟨t, ht⟩ := exists_unpack_of_isInf hy
  rw [lt_zero_of_infinite hs, lt_zero_of_infinite ht] at hsg
  obtain rfl : s = t := by cases s <;> cases t <;> first | rfl | exact absurd hsg (by simp)
  exact eq_of_toBits_eq ((toBits_of_infinite hs).trans (toBits_of_infinite ht).symm)

/-! ### Exact values -/

/-- A finite number as the format holds it: a mantissa of fifty-three bits, the first of which is
set unless the exponent is least. -/
structure Dyadic.Held (d : Dyadic) : Prop where
  mantissa_lt : d.mantissa < 2 ^ 53
  le_exponent : -1074 ≤ d.exponent
  exponent_le : d.exponent ≤ 971
  leading : 2 ^ 52 ≤ d.mantissa ∨ d.exponent = -1074

/-- The magnitude of a finite number as a number of its own. -/
def Dyadic.abs (d : Dyadic) : Float := .ofBits (.ofNat (bitsOf d.mantissa d.exponent))

lemma bitsOf_eq (q : Nat) (t : Int) : bitsOf q t = (t + 1074).toNat * 2 ^ 52 + q := rfl

lemma Dyadic.Held.bitsOf_lt (h : d.Held) : bitsOf d.mantissa d.exponent < infinityBits := by
  obtain ⟨hm, hle, hge, hld⟩ := h
  rw [bitsOf_eq, infinityBits_eq]
  omega

lemma toBits_of_decode (h : decode x = .finite d) :
    d.Held ∧ x.toBits.toNat = (if d.negative then 2 ^ 63 else 0) + bitsOf d.mantissa d.exponent := by
  have hlt : x.toBits.toNat < 2 ^ 64 := x.toBits.toNat_lt
  have hsg : (if (x.toBits.toNat / 2 ^ 63 == 1) = true then 2 ^ 63 else 0) = x.toBits.toNat / 2 ^ 63 * 2 ^ 63 := by
    split_ifs with hone
    · rw [beq_iff_eq] at hone
      omega
    · rw [beq_iff_eq] at hone
      omega
  simp only [decode, pow_eq, beq_iff_eq] at h
  split at h
  · split at h <;> cases h
  · rename_i hbs
    split at h
    · cases h
      simp only [bitsOf_eq, hsg]
      exact ⟨⟨by dsimp only; omega, by simp, by simp, .inr rfl⟩, by omega⟩
    · cases h
      simp only [bitsOf_eq, hsg]
      exact ⟨⟨by dsimp only; omega, by dsimp only; omega, by dsimp only; omega, .inl (by simp)⟩, by omega⟩

lemma eq_of_decode (h : decode x = .finite d) : d.Held ∧ x = if d.negative then -d.abs else d.abs := by
  obtain ⟨hhl, hbt⟩ := toBits_of_decode h
  refine ⟨hhl, eq_of_toBits_eq ?_⟩
  rw [hbt]
  cases d.negative with
  | true => exact (toNat_toBits_neg_ofBits hhl.bitsOf_lt).symm
  | false => exact (zero_add _).trans (toNat_toBits_ofBits hhl.bitsOf_lt).symm

lemma exists_decode (hnan : x.isNaN = false) (hinf : x.isInf = false) : ∃ d, decode x = .finite d := by
  have hexp : x.toBits.toNat / 2 ^ 52 % 2048 ≠ 2047 := by
    intro h
    have hvec : unpackExponent (packedBits x.toBits) = -1#11 := eq_of_toNat_eq (toNat_unpackExponent.trans h)
    change (unpack binary64 x.toBits.toBitVec).isNaN = false at hnan
    change (unpack binary64 x.toBits.toBitVec).isInf = false at hinf
    rw [unpack_of_exponent_eq hvec] at hnan hinf
    split_ifs at hnan with hmn
    · rw [if_pos hmn] at hinf
      cases hinf
    · cases hnan
  simp only [decode, pow_eq, beq_iff_eq, if_neg hexp]
  split <;> exact ⟨_, rfl⟩

end TensorToolchain.Number
