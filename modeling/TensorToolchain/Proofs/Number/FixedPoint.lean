import TensorToolchain.Number.FixedPoint
import TensorToolchain.Proofs.Faults
import TensorToolchain.Proofs.Number.Rounding

/-!
# Fixed-point values are close and as fine as possible

The integer of a fixed-point value has a leading bit, is the scaled number up to half a unit, and
for a positive number no finer scale keeps it in the range.
-/

namespace TensorToolchain.Number

open Nat

variable {x : Float} {num : Int} {den m : Nat} {e j : Int} {r : ℚ}

lemma le_nearestEven (hr : 0 ≤ r) (h : (m : ℚ) ≤ r) : m ≤ nearestEven r := by
  have hab := abs_le.1 (abs_nearestEven_sub_le hr)
  have hlt : (m : ℚ) < nearestEven r + 1 := by linarith
  exact Nat.lt_succ_iff.1 (by exact_mod_cast hlt)

lemma nearestEven_le (hr : 0 ≤ r) (h : r ≤ m) : nearestEven r ≤ m := by
  have hab := abs_le.1 (abs_nearestEven_sub_le hr)
  have hlt : (nearestEven r : ℚ) < m + 1 := by linarith
  exact Nat.lt_succ_iff.1 (by exact_mod_cast hlt)

lemma nearestEven_natCast (m : Nat) : nearestEven m = m := nearestEven_eq (by linarith) (by linarith) (cast_nonneg m)

lemma roundScaled_eq (hd : 0 < den) (j : Int) : roundScaled num den j =
    if num < 0 then -(nearestEven (num.natAbs / den * 2 ^ j) : Int) else nearestEven (num.natAbs / den * 2 ^ j) := by
  simp only [roundScaled, roundDiv_scaled two_pos hd, cast_ofNat]

lemma abs_roundScaled_sub_le (hd : 0 < den) (j : Int) : |(roundScaled num den j : ℚ) - num / den * 2 ^ j| ≤ 1 / 2 := by
  have hn := abs_nearestEven_sub_le (show (0 : ℚ) ≤ num.natAbs / den * 2 ^ j by positivity)
  rw [roundScaled_eq hd]
  split_ifs with hng
  · have hnm : (num : ℚ) = -(num.natAbs : ℚ) := by rw [cast_natAbs, abs_of_neg hng, Int.cast_neg, neg_neg]
    rw [hnm, ← abs_neg, Int.cast_neg, Int.cast_natCast]
    convert hn using 2
    ring
  · have hnm : (num : ℚ) = num.natAbs := by rw [cast_natAbs, abs_of_nonneg (not_lt.1 hng)]
    rwa [hnm, Int.cast_natCast]

lemma roundScaled_sign (num : Int) (den : Nat) (j : Int) :
    (num < 0 → roundScaled num den j ≤ 0) ∧ (0 ≤ num → 0 ≤ roundScaled num den j) := by
  rw [roundScaled]
  split
  omega

/-- The exact value of a number is a number of single precision that is normal there: a mantissa of
twenty-four bits with its binary exponent. -/
structure IsSingle (num : Int) (den m : Nat) (e : Int) : Prop where
  le_mantissa : 2 ^ 23 ≤ m
  mantissa_lt : m < 2 ^ 24
  exponent_le : e ≤ 127
  value : |(num : ℚ) / den| = m * 2 ^ (e - 23)

namespace IsSingle

variable (h : IsSingle num den m e)
include h

lemma natAbs_div : (num.natAbs : ℚ) / den = m * 2 ^ (e - 23) := by
  rw [← h.value, abs_div, abs_cast, cast_natAbs, Int.cast_abs]

lemma scaled_eq (j : Int) : (num.natAbs : ℚ) / den * 2 ^ j = m * 2 ^ (e + j - 23) := by
  rw [h.natAbs_div, mul_assoc, ← zpow_add₀ two_ne_zero]
  ring_nf

lemma pos : 0 < num.natAbs ∧ 0 < den := by
  have hm : (0 : ℚ) < m := by exact_mod_cast lt_of_lt_of_le (by norm_num) h.le_mantissa
  have hne : (num.natAbs : ℚ) / den ≠ 0 := h.natAbs_div ▸ (mul_pos hm (zpow_pos two_pos _)).ne'
  obtain ⟨hn, hd⟩ := div_ne_zero_iff.1 hne
  exact ⟨pos_of_ne_zero (by exact_mod_cast hn), pos_of_ne_zero (by exact_mod_cast hd)⟩

lemma lt_overflow : (num.natAbs : Int) < singleOverflow * den := by
  have hd : (0 : ℚ) < den := by exact_mod_cast h.pos.2
  have hm : (m : ℚ) ≤ 2 ^ 24 - 1 := by
    rw [le_sub_iff_add_le]
    exact_mod_cast h.mantissa_lt
  have hpw : (2 : ℚ) ^ (e - 23) ≤ 2 ^ (104 : Int) := zpow_le_zpow_right₀ one_le_two (by linarith [h.exponent_le])
  have hlt : (num.natAbs : ℚ) / den < singleOverflow := by
    calc (num.natAbs : ℚ) / den = m * 2 ^ (e - 23) := h.natAbs_div
      _ ≤ (2 ^ 24 - 1) * 2 ^ (104 : Int) := by gcongr
      _ < singleOverflow := by norm_num [singleOverflow]
  rw [div_lt_iff₀ hd, ← Int.cast_natCast] at hlt
  exact_mod_cast hlt

lemma singleExponent_eq (he : -126 ≤ e) : singleExponent num den = some e := by
  have hlo : (2 : ℚ) ^ 23 ≤ m := by exact_mod_cast h.le_mantissa
  have hhi : (m : ℚ) < 2 ^ 24 := by exact_mod_cast h.mantissa_lt
  have hlog : .log 2 ((num.natAbs : ℚ) / den) = e := by
    rw [h.natAbs_div]
    refine log_eq one_lt_two ?_ ?_
    · calc ((2 : Nat) : ℚ) ^ e = 2 ^ 23 * 2 ^ (e - 23) := by
            rw [cast_ofNat, ← zpow_natCast, ← zpow_add₀ two_ne_zero]; ring_nf
        _ ≤ m * 2 ^ (e - 23) := by gcongr
    · calc (m : ℚ) * 2 ^ (e - 23) < 2 ^ 24 * 2 ^ (e - 23) := by gcongr
        _ = ((2 : Nat)) ^ (e + 1) := by rw [cast_ofNat, ← zpow_natCast, ← zpow_add₀ two_ne_zero]; ring_nf
  have hrd : roundDiv (scaled 2 num.natAbs den (23 - e)).1 (scaled 2 num.natAbs den (23 - e)).2 = m := by
    rw [roundDiv_scaled two_pos h.pos.2, cast_ofNat, h.scaled_eq]
    simp [nearestEven_natCast]
  have hm := h.mantissa_lt
  simp only [singleExponent, floorExponent_log2 h.pos.1 h.pos.2, hlog, hrd]
  rw [if_neg (by simpa using h.pos.1.ne'), if_neg (show ¬ 16777216 ≤ m by omega), if_neg (by omega)]

/-- The size of the rounded number. -/
lemma natAbs_roundScaled (j : Int) : (roundScaled num den j).natAbs = nearestEven (m * 2 ^ (e + j - 23)) := by
  rw [roundScaled_eq h.pos.2, h.scaled_eq]
  split <;> simp

lemma le_rounded (hj : 15 - e ≤ j) : 2 ^ 15 ≤ nearestEven (m * 2 ^ (e + j - 23)) := by
  have hm : (2 : ℚ) ^ 23 ≤ m := by exact_mod_cast h.le_mantissa
  refine le_nearestEven (by positivity) ?_
  calc ((2 ^ 15) : ℚ) = 2 ^ 23 * 2 ^ (-8 : Int) := by norm_num
    _ ≤ m * 2 ^ (e + j - 23) :=
      mul_le_mul hm (zpow_le_zpow_right₀ one_le_two (by omega)) (by positivity) (by positivity)

lemma rounded_mem : 2 ^ 14 ≤ nearestEven (m * 2 ^ (-9 : Int)) ∧ nearestEven (m * 2 ^ (-9 : Int)) ≤ 2 ^ 15 := by
  have hlo : (2 : ℚ) ^ 23 ≤ m := by exact_mod_cast h.le_mantissa
  have hhi : (m : ℚ) < 2 ^ 24 := by exact_mod_cast h.mantissa_lt
  exact ⟨le_nearestEven (by positivity) (by norm_num; linarith), nearestEven_le (by positivity) (by norm_num; linarith)⟩

/-- Where the scaled number is rounded out of the range, half of it is rounded to the least integer
with a leading bit. -/
lemma rounded_half (hf : nearestEven (m * 2 ^ (-9 : Int)) = 2 ^ 15) : nearestEven (m * 2 ^ (-10 : Int)) = 2 ^ 14 := by
  have hm : (m : ℚ) < 2 ^ 24 := by exact_mod_cast h.mantissa_lt
  have hn := abs_le.1 (abs_nearestEven_sub_le (show (0 : ℚ) ≤ m * 2 ^ (-9 : Int) by positivity))
  rw [hf] at hn
  norm_num at hn
  exact nearestEven_eq (by norm_num; linarith) (by norm_num; linarith) (by positivity)

lemma roundScaled_outside (hp : 0 < num) (hj : 15 - e ≤ j) : fitsFixed (roundScaled num den j) = false := by
  have hle := h.natAbs_roundScaled j ▸ h.le_rounded hj
  have hs := (roundScaled_sign num den j).2 hp.le
  rw [fitsFixed, decide_eq_false_iff_not]
  omega

end IsSingle

/-- The fixed-point value of a normal number of single precision that is not too small: it is in the
range with a leading bit and within half a unit, and for a positive number the scale is the finest
for which the rounded number stays in the range. -/
theorem fixedPoint_near_and_finest (hx : toRatio? x = some (num, den)) (h : IsSingle num den m e)
    (he : -113 ≤ e) : ∃ v k : Int, fixedPoint x "int16" = .ok (v, k) ∧ (-32768 ≤ v ∧ v ≤ 32767) ∧
      2 ^ 14 ≤ v.natAbs ∧ |(v : ℚ) - num / den * 2 ^ k| ≤ 1 / 2 ∧
      (0 < num → IsGreatest {j | fitsFixed (roundScaled num den j) = true} k) := by
  have hv : fixedPoint x "int16" = .ok (fixedOf num den e) := by
    rw [fixedPoint, hx]
    dsimp only
    rw [decide_eq_true h.lt_overflow, demand_true, ok_bind, h.singleExponent_eq (by omega)]
    dsimp only
    rw [decide_eq_true (show 14 - e ≤ 127 by omega)]
    rfl
  have hv14 : (roundScaled num den (14 - e)).natAbs = nearestEven (m * 2 ^ (-9 : Int)) := by
    rw [h.natAbs_roundScaled, show e + (14 - e) - 23 = -9 by ring]
  have hmem := h.rounded_mem
  rw [hv]
  simp only [fixedOf]
  by_cases hfit : fitsFixed (roundScaled num den (14 - e)) = true
  · rw [if_pos hfit]
    refine ⟨_, _, rfl, of_decide_eq_true hfit, hv14 ▸ hmem.1, abs_roundScaled_sub_le h.pos.2 _,
      fun hp => ⟨hfit, fun j hj => ?_⟩⟩
    by_contra hlt
    rw [Set.mem_ofPred_eq, h.roundScaled_outside hp (by omega)] at hj
    cases hj
  · -- only a positive number is rounded out of the range, and to its end
    have hend : roundScaled num den (14 - e) = 2 ^ 15 := by
      rw [fitsFixed, decide_eq_true_iff] at hfit
      omega
    have hnn : 0 ≤ num := by
      have hs := (roundScaled_sign num den (14 - e)).1
      omega
    have hh : roundScaled num den (14 - e - 1) = 2 ^ 14 := by
      have hs := (roundScaled_sign num den (14 - e - 1)).2 hnn
      have hsz := h.natAbs_roundScaled (14 - e - 1)
      rw [show e + (14 - e - 1) - 23 = -10 by ring, h.rounded_half (by rw [← hv14, hend]; rfl)] at hsz
      omega
    rw [if_neg hfit]
    refine ⟨_, _, rfl, by rw [hh]; norm_num, by rw [hh]; rfl, abs_roundScaled_sub_le h.pos.2 _,
      fun hp => ⟨by rw [Set.mem_ofPred_eq, hh]; rfl, fun j hj => ?_⟩⟩
    by_contra hlt
    rcases (show 14 - e ≤ j by omega).eq_or_lt with rfl | hlt
    · exact hfit hj
    · rw [Set.mem_ofPred_eq, h.roundScaled_outside hp (by omega)] at hj
      cases hj

/-- The number just below two is rounded out of the range and takes the coarser scale. -/
theorem fixedPoint_belowTwo : toRatio? (Float.ofBits 0x3fffffffe0000000) = some (16777215 * 2 ^ 29, 2 ^ 52) ∧
      ∃ v k : Int, fixedPoint (Float.ofBits 0x3fffffffe0000000) "int16" = .ok (v, k) ∧
        IsGreatest {j | fitsFixed (roundScaled (16777215 * 2 ^ 29) (2 ^ 52) j) = true} k := by
  have hx : toRatio? (Float.ofBits 0x3fffffffe0000000) = some (16777215 * 2 ^ 29, 2 ^ 52) := by decide +kernel
  have hs : IsSingle (16777215 * 2 ^ 29) (2 ^ 52) 16777215 0 :=
    ⟨by norm_num, by norm_num, by norm_num, by norm_num [abs_of_pos]⟩
  obtain ⟨v, k, hv, -, -, -, hg⟩ := fixedPoint_near_and_finest hx hs (by norm_num)
  exact ⟨hx, v, k, hv, hg (by norm_num)⟩

end TensorToolchain.Number
