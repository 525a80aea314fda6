import TensorToolchain.Proofs.Number.FloatBits

/-!
# Rounding to the nearest number

Which number of the format is nearest to a fraction depends on the value of the fraction alone.
Every rational number that is closer to a number of the format than half the way to its neighbours
is rounded to it.
-/

namespace TensorToolchain.Number

open Nat

variable {q r : ℚ} {e : Int} {d : Dyadic}

/-! ### Fractions -/

def ratio (p : Nat × Nat) : ℚ := p.1 / p.2

variable {base num den : Nat}

lemma den_scaled_pos (num : Nat) (hbs : 0 < base) (hden : 0 < den) (k : Int) : 0 < (scaled base num den k).2 := by
  rw [scaled]
  split
  · exact hden
  · exact mul_pos hden (Nat.pow_pos hbs)

lemma ratio_scaled (base num den : Nat) (k : Int) : ratio (scaled base num den k) = num / den * (base : ℚ) ^ k := by
  rw [scaled]
  split_ifs with hk
  · obtain ⟨n, rfl⟩ := Int.eq_ofNat_of_zero_le hk
    simp only [ratio, Int.toNat_natCast, pow_eq, cast_mul, cast_pow, zpow_natCast]
    ring
  · obtain ⟨n, hn⟩ := Int.eq_ofNat_of_zero_le (show 0 ≤ -k by omega)
    obtain rfl : k = -(n : Int) := by omega
    simp only [ratio, neg_neg, Int.toNat_natCast, pow_eq, cast_mul, cast_pow, zpow_neg, zpow_natCast]
    rw [div_mul_eq_div_div, div_eq_mul_inv]

lemma log_eq (hbs : 1 < base) (hlow : (base : ℚ) ^ e ≤ q) (hhg : q < (base : ℚ) ^ (e + 1)) : Int.log base q = e := by
  have hq : 0 < q := lt_of_lt_of_le (zpow_pos (by exact_mod_cast zero_lt_of_lt hbs) e) hlow
  have h₁ := (Int.zpow_le_iff_le_log hbs hq).1 hlow
  have h₂ := (Int.lt_zpow_iff_log_lt hbs hq).1 hhg
  omega

/-- The leading exponent of a fraction is found from the logarithms of its parts. -/
lemma floorExponent_eq_log (hbs : 1 < base) (hden : 0 < den) {a b : Nat}
    (ha : base ^ a ≤ num ∧ num < base ^ (a + 1)) (hb : base ^ b ≤ den ∧ den < base ^ (b + 1)) :
    floorExponent base num den ((a : Int) - b) = Int.log base (num / den : ℚ) := by
  have hz : 0 < base := zero_lt_of_lt hbs
  have hpos : (0 : ℚ) < base := by exact_mod_cast hz
  have hdn' : (0 : ℚ) < den := by exact_mod_cast hden
  -- the value lies between the powers next to the guess
  have hlow : (base : ℚ) ^ ((a : Int) - b - 1) ≤ num / den := by
    rw [le_div_iff₀ hdn', sub_sub, zpow_sub₀ hpos.ne', div_mul_eq_mul_div, div_le_iff₀ (zpow_pos hpos _)]
    have h₁ : (base : ℚ) ^ (a : Int) ≤ num := by exact_mod_cast ha.1
    have h₂ : (den : ℚ) ≤ base ^ ((b : Int) + 1) := by exact_mod_cast hb.2.le
    exact mul_le_mul h₁ h₂ hdn'.le (cast_nonneg num)
  have hhg : (num / den : ℚ) < base ^ ((a : Int) - b + 1) := by
    have hexp : (a : Int) - b + 1 = (a + 1 : Int) - b := by ring
    rw [hexp, div_lt_iff₀ hdn', zpow_sub₀ hpos.ne', div_mul_eq_mul_div, lt_div_iff₀ (zpow_pos hpos _)]
    have h₁ : (num : ℚ) < base ^ ((a : Int) + 1) := by exact_mod_cast ha.2
    have h₂ : (base : ℚ) ^ (b : Int) ≤ den := by exact_mod_cast hb.1
    exact mul_lt_mul h₁ h₂ (zpow_pos hpos _) (zpow_pos hpos _).le
  have hle : (scaled base num den (-((a : Int) - b))).2 ≤ (scaled base num den (-((a : Int) - b))).1 ↔
      (base : ℚ) ^ ((a : Int) - b) ≤ num / den := by
    have hsc := ratio_scaled base num den (-(a - b))
    rw [zpow_neg, ← div_eq_mul_inv] at hsc
    rw [← one_le_div (zpow_pos hpos _), ← hsc, ratio,
      one_le_div (by exact_mod_cast den_scaled_pos num hz hden _), cast_le]
  rw [floorExponent]
  simp only [hle]
  split_ifs with h
  · exact (log_eq hbs h hhg).symm
  · exact (log_eq hbs hlow (by rw [sub_add_cancel]; exact not_le.1 h)).symm

/-! ### Nearest integers -/

/-- The natural number nearest to a rational number, a tie going to the even one. -/
def nearestEven (r : ℚ) : Nat :=
  let f := ⌊r⌋₊
  if r - f < 1 / 2 then f
  else if 1 / 2 < r - f then f + 1
  else if f % 2 = 0 then f else f + 1

lemma roundDiv_eq (hden : 0 < den) : roundDiv num den = nearestEven (num / den : ℚ) := by
  have hpos : (0 : ℚ) < den := by exact_mod_cast hden
  have hfl : ⌊(num / den : ℚ)⌋₊ = num / den := floor_div_eq_div num den
  have hr : (num / den : ℚ) - ((num / den : Nat) : ℚ) = ((num % den : Nat) : ℚ) / den := by
    have hsp : (num : ℚ) = den * ((num / den : Nat) : ℚ) + ((num % den : Nat) : ℚ) := by
      exact_mod_cast (div_add_mod num den).symm
    rw [eq_div_iff hpos.ne', sub_mul, div_mul_cancel₀ _ hpos.ne']
    linarith
  have hls : ((num % den : Nat) : ℚ) / den < 1 / 2 ↔ 2 * (num % den) < den := by
    rw [div_lt_div_iff₀ hpos two_pos, one_mul, mul_comm]
    exact_mod_cast Iff.rfl
  have hmr : (1 / 2 : ℚ) < ((num % den : Nat) : ℚ) / den ↔ den < 2 * (num % den) := by
    rw [div_lt_div_iff₀ two_pos hpos, one_mul, mul_comm]
    exact_mod_cast Iff.rfl
  simp only [roundDiv, nearestEven, hfl, hr, hls, hmr, beq_iff_eq, gt_iff_lt]

/-- What is less than a half away from a natural number is rounded to it. -/
lemma nearestEven_eq {m : Nat} (hlow : (m : ℚ) - 1 / 2 < r) (hhg : r < m + 1 / 2) (hr : 0 ≤ r) : nearestEven r = m := by
  rcases le_or_gt (m : ℚ) r with hle | hlt
  · have hfl : ⌊r⌋₊ = m := (floor_eq_iff hr).2 ⟨hle, by linarith⟩
    simp only [nearestEven, hfl]
    rw [if_pos (by linarith)]
  · obtain ⟨k, rfl⟩ : ∃ k, m = k + 1 := exists_eq_succ_of_ne_zero (by rintro rfl; simp at hlt; linarith)
    push_cast at hlow hlt
    have hfl : ⌊r⌋₊ = k := (floor_eq_iff hr).2 ⟨by linarith, hlt⟩
    simp only [nearestEven, hfl]
    rw [if_neg (by linarith), if_pos (by linarith)]

lemma abs_nearestEven_sub_le (hr : 0 ≤ r) : |(nearestEven r : ℚ) - r| ≤ 1 / 2 := by
  have h₁ := floor_le hr
  have h₂ := lt_floor_add_one r
  rw [abs_le]
  simp only [nearestEven]
  split_ifs <;> push_cast <;> constructor <;> linarith

/-! ### The nearest number of the format -/

/-- The power of two in whose multiples a positive number is rounded. -/
def roundingExponent (q : ℚ) : Int := max (Int.log 2 q - 52) (-1074)

/-- The bits of the number of the format nearest to a positive number. -/
def nearestBits (q : ℚ) : Nat := bitsOf (nearestEven (q / 2 ^ roundingExponent q)) (roundingExponent q)

/-- The number of the format nearest to a rational number that is not negative, if it is finite. -/
def nearest (q : ℚ) : Option Float :=
  if q = 0 then some 0.0
  else if nearestBits q < infinityBits then some (Float.ofBits (UInt64.ofNat (nearestBits q)))
  else none

lemma floorExponent_log2 (hnum : 0 < num) (hden : 0 < den) :
    floorExponent 2 num den ((num.log2 : Int) - den.log2) = Int.log 2 (num / den : ℚ) :=
  floorExponent_eq_log one_lt_two hden ⟨log2_self_le hnum.ne', lt_log2_self⟩ ⟨log2_self_le hden.ne', lt_log2_self⟩

lemma roundDiv_scaled (hbs : 0 < base) (hden : 0 < den) (k : Int) :
    roundDiv (scaled base num den k).1 (scaled base num den k).2 = nearestEven (num / den * (base : ℚ) ^ k) := by
  rw [roundDiv_eq (den_scaled_pos num hbs hden k), ← ratio_scaled, ratio]

lemma nearestFloat?_eq (hden : 0 < den) : nearestFloat? num den = nearest (num / den : ℚ) := by
  have hdn' : (den : ℚ) ≠ 0 := by exact_mod_cast hden.ne'
  rcases Nat.eq_zero_or_pos num with rfl | hnum
  · simp [nearestFloat?, nearest]
  · have hnm' : (num : ℚ) ≠ 0 := by exact_mod_cast hnum.ne'
    have hmax : max (.log 2 (num / den : ℚ) - 52) (-1074) = roundingExponent (num / den) := rfl
    have hrn : roundDiv (scaled 2 num den (-roundingExponent (num / den))).1
        (scaled 2 num den (-roundingExponent (num / den))).2 =
          nearestEven (num / den / 2 ^ roundingExponent (num / den)) := by
      rw [roundDiv_scaled two_pos hden, zpow_neg, ← div_eq_mul_inv, cast_ofNat]
    rw [nearest, if_neg (div_ne_zero hnm' hdn'), nearestFloat?, if_neg (by simpa using hnum.ne')]
    simp only [floorExponent_log2 hnum hden, hmax, hrn, nearestBits]
    congr

lemma zero_eq_ofBits : (0.0 : Float) = Float.ofBits (UInt64.ofNat 0) := by decide +kernel

lemma nearest_of_lt (hq : 0 ≤ q) (hlt : q < 2 ^ (-1075 : Int)) : nearest q = some 0.0 := by
  rcases hq.eq_or_lt with rfl | hpos
  · simp [nearest]
  · have hlog : .log 2 q < -1075 := (Int.lt_zpow_iff_log_lt one_lt_two hpos).1 (by rwa [cast_ofNat])
    have ht : roundingExponent q = -1074 := by
      rw [roundingExponent]
      omega
    have hqt : q / 2 ^ (-1074 : Int) < 1 / 2 := by
      rw [div_lt_iff₀ (zpow_pos two_pos _), one_div, ← zpow_neg_one, ← zpow_add₀ two_ne_zero]
      exact hlt
    have hnn : 0 ≤ q / 2 ^ (-1074 : Int) := div_nonneg hq (zpow_pos two_pos _).le
    have hrn : nearestEven (q / 2 ^ (-1074 : Int)) = 0 := nearestEven_eq (by rw [cast_zero]; linarith) (by linarith) hnn
    have hbt : nearestBits q = 0 := by
      rw [nearestBits, ht, bitsOf_eq]
      omega
    rw [nearest, if_neg hpos.ne', hbt, infinityBits_eq, if_pos (by norm_num), zero_eq_ofBits]

lemma nearest_of_le (hle : 2 ^ (1025 : Int) ≤ q) : nearest q = none := by
  have hpos : 0 < q := lt_of_lt_of_le (zpow_pos two_pos _) hle
  have hlog : 1025 ≤ Int.log 2 q := (Int.zpow_le_iff_le_log one_lt_two hpos).1 (by rwa [cast_ofNat])
  have ht : 973 ≤ roundingExponent q := by
    rw [roundingExponent]
    omega
  have hbt : infinityBits ≤ nearestBits q := by
    rw [nearestBits, bitsOf_eq, infinityBits_eq]
    omega
  rw [nearest, if_neg hpos.ne', if_neg (by omega)]

def Dyadic.value (d : Dyadic) : ℚ := d.mantissa * 2 ^ d.exponent

lemma Dyadic.ratio_magnitude (d : Dyadic) : ratio d.magnitude = d.value := by
  rw [magnitude, ratio_scaled, value, cast_one, div_one, cast_ofNat]

/-- The multiples in which a number close to one of the format is rounded, unless it lies below the
least mantissa with a leading bit. -/
lemma Dyadic.Held.roundingExponent_eq (h : d.Held) (hq : 0 < q) (hhg : q < 2 ^ (d.exponent + 53))
    (hlow : 2 ^ (d.exponent + 52) ≤ q ∨ d.exponent = -1074) : roundingExponent q = d.exponent := by
  have hle := h.le_exponent
  have hup : .log 2 q < d.exponent + 53 := (Int.lt_zpow_iff_log_lt one_lt_two hq).1 (by rwa [cast_ofNat])
  rw [roundingExponent]
  rcases hlow with hlow | hls
  · have hlw : d.exponent + 52 ≤ .log 2 q := (Int.zpow_le_iff_le_log one_lt_two hq).1 (by rwa [cast_ofNat])
    omega
  · omega

/-- Just below the least mantissa with a leading bit the multiples are finer, and rounding carries
into the next exponent. -/
lemma nearestBits_below (he : -1074 < e) (hlow : 2 ^ 52 - 1 / 4 < r) (hhg : r < 2 ^ 52) :
    nearestBits (r * 2 ^ e) = bitsOf (2 ^ 52) e := by
  have hun : (0 : ℚ) < 2 ^ e := zpow_pos two_pos _
  have hlog : .log 2 (r * 2 ^ e) = e + 51 := by
    refine log_eq one_lt_two ?_ ?_
    · rw [cast_ofNat, add_comm, zpow_add₀ two_ne_zero]
      refine mul_le_mul_of_nonneg_right ?_ hun.le
      linarith
    · rw [cast_ofNat, add_assoc, add_comm, zpow_add₀ two_ne_zero]
      refine mul_lt_mul_of_pos_right ?_ hun
      norm_num
      linarith
  have ht : roundingExponent (r * 2 ^ e) = e - 1 := by
    rw [roundingExponent]
    omega
  have hqt : r * 2 ^ e / 2 ^ (e - 1) = 2 * r := by
    rw [zpow_sub_one₀ two_ne_zero]
    field_simp
  have hrn : nearestEven (2 * r) = 2 ^ 53 := nearestEven_eq (by norm_num; linarith) (by linarith) (by linarith)
  rw [nearestBits, ht, hqt, bitsOf_eq, bitsOf_eq]
  omega

/-- A number whose relative distance from one of the format is less than `2 ^ -54` has its bits. -/
lemma Dyadic.Held.nearestBits_eq (h : d.Held) (hnr : |q - d.value| < d.value / 2 ^ 54) :
    nearestBits q = bitsOf d.mantissa d.exponent := by
  have hun : (0 : ℚ) < 2 ^ d.exponent := zpow_pos two_pos _
  have hmlt : (d.mantissa : ℚ) + 1 ≤ 2 ^ 53 := by exact_mod_cast h.mantissa_lt
  -- the quotient by the unit of the last place, and how far it is from the mantissa
  obtain ⟨r, rfl⟩ : ∃ r, q = r * 2 ^ d.exponent := ⟨q / 2 ^ d.exponent, (div_mul_cancel₀ q hun.ne').symm⟩
  have hds : |r - d.mantissa| < d.mantissa / 2 ^ 54 := by
    rw [value, ← sub_mul, abs_mul, abs_of_pos hun, mul_div_right_comm] at hnr
    exact lt_of_mul_lt_mul_right hnr hun.le
  obtain ⟨hbl, hab⟩ := abs_lt.1 hds
  have hrp : 0 < r := by linarith
  have hqp : 0 < r * 2 ^ d.exponent := mul_pos hrp hun
  have hpow (k : Nat) : (2 : ℚ) ^ (d.exponent + k) = 2 ^ k * 2 ^ d.exponent := by
    rw [zpow_add₀ two_ne_zero, mul_comm, zpow_natCast]
  have hhg : r * 2 ^ d.exponent < 2 ^ (d.exponent + 53) :=
    (mul_lt_mul_of_pos_right (show r < 2 ^ 53 by linarith) hun).trans_eq (hpow 53).symm
  by_cases hlow : 2 ^ (d.exponent + 52) ≤ r * 2 ^ d.exponent ∨ d.exponent = -1074
  · have hrn : nearestEven r = d.mantissa := nearestEven_eq (by linarith) (by linarith) hrp.le
    rw [nearestBits, h.roundingExponent_eq hqp hhg hlow, mul_div_cancel_right₀ _ hun.ne', hrn]
  · obtain ⟨hbl52, hnot⟩ := not_or.1 hlow
    have hr52 : r < 2 ^ 52 := lt_of_mul_lt_mul_right ((not_le.1 hbl52).trans_eq (hpow 52)) hun.le
    have hmn : d.mantissa = 2 ^ 52 := by
      refine le_antisymm (Nat.lt_succ_iff.1 ?_) (h.leading.resolve_right hnot)
      have hcs : (d.mantissa : ℚ) < 2 ^ 52 + 1 := by linarith
      exact_mod_cast hcs
    rw [hmn, cast_pow] at hbl
    rw [hmn]
    exact nearestBits_below (lt_of_le_of_ne h.le_exponent (.symm hnot)) (by linarith) hr52

/-- A number whose relative distance from one of the format is less than `2 ^ -54` is rounded to
it. -/
lemma Dyadic.Held.nearest_eq (h : d.Held) (hm : 0 < d.mantissa) (hnr : |q - d.value| < d.value / 2 ^ 54) :
    nearest q = some d.abs := by
  have hv : 0 < d.value := mul_pos (by exact_mod_cast hm) (zpow_pos two_pos _)
  have hq : q ≠ 0 := by
    rintro rfl
    rw [zero_sub, abs_neg, abs_of_pos hv] at hnr
    linarith
  rw [nearest, if_neg hq, h.nearestBits_eq hnr, if_pos h.bitsOf_lt, abs]

lemma lt_ten_pow_log2 (num : Nat) : num < 10 ^ (num.log2 / 3 + 1) := by
  have hexp : num.log2 + 1 ≤ 3 * (num.log2 / 3 + 1) := by omega
  calc num < 2 ^ (num.log2 + 1) := lt_log2_self
    _ ≤ 2 ^ (3 * (num.log2 / 3 + 1)) := Nat.pow_le_pow_right two_pos hexp
    _ = 8 ^ (num.log2 / 3 + 1) := by rw [pow_mul]; norm_num
    _ ≤ 10 ^ (num.log2 / 3 + 1) := Nat.pow_le_pow_left (by norm_num) _

/-- Reading a decimal rounds its value, the cut-offs included: they only spare the work. -/
lemma ofDecimal_eq (digits : Nat) (exponent : Int) :
    ofDecimal digits exponent = (nearest (digits * 10 ^ exponent)).getD (1.0 / 0.0) := by
  rw [ofDecimal]
  rcases Nat.eq_zero_or_pos digits with rfl | hpos
  · simp [nearest]
  have hone : (1 : ℚ) ≤ digits := by exact_mod_cast hpos
  have hten (k : Int) : (0 : ℚ) < 10 ^ k := zpow_pos (by norm_num) k
  rw [if_neg (by simpa using hpos.ne')]
  split
  · have hle : (2 : ℚ) ^ (1025 : Int) ≤ digits * 10 ^ exponent := by
      calc (2 : ℚ) ^ 1025 ≤ 10 ^ 801 := by
            exact_mod_cast (by decide +kernel : 2 ^ 1025 ≤ 10 ^ 801)
        _ ≤ 10 ^ exponent := zpow_le_zpow_right₀ (by norm_num) (by omega)
        _ ≤ digits * 10 ^ exponent := le_mul_of_one_le_left (hten _).le hone
    rw [nearest_of_le hle, Option.getD_none]
  · split
    · have hdg : (digits : ℚ) < 10 ^ ((digits.log2 : Int) / 3 + 1) := by
        exact_mod_cast lt_ten_pow_log2 digits
      have hlt : digits * (10 : ℚ) ^ exponent < 2 ^ (-1075 : Int) := by
        calc digits * (10 : ℚ) ^ exponent
            < 10 ^ ((digits.log2 : Int) / 3 + 1) * 10 ^ exponent := mul_lt_mul_of_pos_right hdg (hten _)
          _ = 10 ^ (digits.log2 / 3 + 1 + exponent) := (zpow_add₀ (by norm_num) _ _).symm
          _ ≤ 10 ^ (-1075 : Int) := zpow_le_zpow_right₀ (by norm_num) (by omega)
          _ ≤ 2 ^ (-1075 : Int) := by
            rw [zpow_neg, zpow_neg]
            exact inv_anti₀ (zpow_pos two_pos _) (zpow_le_zpow_left₀ (by norm_num) (by norm_num) (by norm_num))
      rw [nearest_of_lt (mul_nonneg (by linarith) (hten _).le) hlt, Option.getD_some]
    · have hrt := ratio_scaled 10 digits 1 exponent
      rw [ratio, cast_one, div_one, cast_ofNat] at hrt
      have hden : 0 < (scaled 10 digits 1 exponent).2 := den_scaled_pos digits (by norm_num) one_pos exponent
      simp only [nearestFloat?_eq hden, hrt]

end TensorToolchain.Number
