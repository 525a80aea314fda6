import TensorToolchain.Json.Parser
import TensorToolchain.Proofs.Number.Rounding

/-!
# Shortest decimals and the text of numbers

The decimal chosen for a finite number is rounded to that number again. Up to sixteen digits a
decimal is chosen only if it is; seventeen digits are close enough to the number to leave no choice.
-/

namespace TensorToolchain.Number

open List Int Decimal Nat Option

variable {num den count n c q : Nat} {d : Dyadic}

lemma digitCount_pos (n : Nat) : 0 < digitCount n := length_repr_pos

lemma digitCount_le_iff (hc : 0 < c) : digitCount n ≤ c ↔ n < 10 ^ c := length_repr_le_iff hc

lemma lt_pow_digitCount (n : Nat) : n < 10 ^ digitCount n := (digitCount_le_iff (digitCount_pos n)).1 le_rfl

lemma pow_digitCount_le (hn : 0 < n) : 10 ^ (digitCount n - 1) ≤ n := by
  by_contra hlt
  rcases Nat.eq_zero_or_pos (digitCount n - 1) with hz | hone
  · rw [hz] at hlt
    omega
  · have := (digitCount_le_iff hone).2 (not_le.1 hlt)
    omega

lemma digitCount_eq (hc : 0 < c) (hlow : 10 ^ (c - 1) ≤ n) (hhg : n < 10 ^ c) : digitCount n = c := by
  have hle := (digitCount_le_iff hc).2 hhg
  have hpow : 10 ^ (c - 1) < 10 ^ digitCount n := hlow.trans_lt (lt_pow_digitCount n)
  have := (Nat.pow_lt_pow_iff_right (by norm_num)).1 hpow
  omega

lemma decimalExponent_eq (hnum : 0 < num) (hden : 0 < den) : decimalExponent num den = log 10 (num / den : ℚ) := by
  have hbn {n : Nat} (hn : 0 < n) : 10 ^ (digitCount n - 1) ≤ n ∧ n < 10 ^ (digitCount n - 1 + 1) := by
    rw [Nat.sub_add_cancel (digitCount_pos n)]
    exact ⟨pow_digitCount_le hn, lt_pow_digitCount n⟩
  have hgs : (digitCount num : Int) - digitCount den =
      ((digitCount num - 1 : Nat) : Int) - (digitCount den - 1 : Nat) := by
    have := digitCount_pos num
    have := digitCount_pos den
    omega
  rw [decimalExponent, hgs, floorExponent_eq_log (by norm_num) hden (hbn hnum) (hbn hden)]

/-! ### Decimals with a number of digits -/

def Decimal.value (d : Decimal) : ℚ := d.digits * 10 ^ (d.exponent + 1 - digitCount d.digits)

lemma Decimal.ratio_toRatio {d : Decimal} (h : digitCount d.digits = count) : ratio (d.toRatio count) = d.value := by
  rw [toRatio, ratio_scaled, value, h, Nat.cast_one, div_one, Nat.cast_ofNat]

/-- A decimal whose places are filled by rounding has as many digits as any other, and the same
value. -/
lemma Decimal.normal_value (hcnt : 0 < count) (hlow : 10 ^ (count - 1) ≤ q) (hhg : q ≤ 10 ^ count) (e : Int) :
    digitCount (normal count q e).digits = count ∧ 0 < (normal count q e).digits ∧
      (normal count q e).value = q * 10 ^ (e + 1 - count) := by
  have hten : 0 < 10 ^ (count - 1) := Nat.pow_pos (by norm_num)
  rw [normal]
  split_ifs with hfl
  · rw [beq_iff_eq] at hfl
    have hdg : digitCount (10 ^ (count - 1)) = count :=
      digitCount_eq hcnt le_rfl (Nat.pow_lt_pow_right (by norm_num) (by omega))
    refine ⟨hdg, hten, ?_⟩
    simp only [value, Nat.pow_eq, hdg, hfl]
    push_cast
    rw [← zpow_natCast, ← zpow_natCast, ← zpow_add₀ (by norm_num), ← zpow_add₀ (by norm_num)]
    congr 1
    omega
  · rw [beq_iff_eq] at hfl
    have hdg : digitCount q = count := digitCount_eq hcnt hlow (lt_of_le_of_ne hhg hfl)
    refine ⟨hdg, hten.trans_le hlow, ?_⟩
    simp [value, hdg]

/-- A positive number in units of the last of its first `count` digits. -/
def inPlaces (count : Nat) (v : ℚ) : ℚ := v * 10 ^ ((count : Int) - 1 - log 10 v)

lemma inPlaces_bounds (hcnt : 0 < count) {v : ℚ} (hv : 0 < v) :
    10 ^ (count - 1) ≤ inPlaces count v ∧ inPlaces count v < 10 ^ count := by
  have hun : (0 : ℚ) < 10 ^ ((count : Int) - 1 - log 10 v) := zpow_pos (by norm_num) _
  have hlow := zpow_log_le_self (b := 10) (by norm_num) hv
  have hhg := lt_zpow_succ_log_self (b := 10) (by norm_num) v
  constructor
  · calc 10 ^ (count - 1) = 10 ^ log 10 v * 10 ^ (count - 1 - log 10 v) := by
          rw [← zpow_add₀ (by norm_num), ← zpow_natCast]
          congr 1
          omega
      _ ≤ _ := mul_le_mul_of_nonneg_right hlow hun.le
  · calc inPlaces count v < 10 ^ (log 10 v + 1) * 10 ^ (count - 1 - log 10 v) :=
          mul_lt_mul_of_pos_right hhg hun
      _ = 10 ^ count := by
          rw [← zpow_add₀ (by norm_num), ← zpow_natCast]
          congr 1
          omega

lemma nearestEven_eq_or (r : ℚ) : nearestEven r = ⌊r⌋₊ ∨ nearestEven r = ⌊r⌋₊ + 1 := by
  simp only [nearestEven]
  split_ifs <;> simp

/-- The numbers next to a positive number, in units of its last digit, have as many digits or fill
them. -/
lemma bounds_of_next (hcnt : 0 < count) {v : ℚ} (hv : 0 < v)
    (hq : q = ⌊inPlaces count v⌋₊ ∨ q = ⌊inPlaces count v⌋₊ + 1) : 10 ^ (count - 1) ≤ q ∧ q ≤ 10 ^ count := by
  obtain ⟨hlow, hhg⟩ := inPlaces_bounds hcnt hv
  have hfl : 10 ^ (count - 1) ≤ ⌊inPlaces count v⌋₊ := le_floor (by exact_mod_cast hlow)
  have hcl : ⌊inPlaces count v⌋₊ < 10 ^ count := (floor_lt' (by positivity)).2 (by exact_mod_cast hhg)
  omega

lemma roundDiv_places (hden : 0 < den) : roundDiv (scaled 10 num den ((count : Int) - 1 - log 10 (num / den : ℚ))).1
      (scaled 10 num den ((count : Int) - 1 - log 10 (num / den : ℚ))).2 =
        nearestEven (inPlaces count (num / den)) := by
  rw [roundDiv_scaled (by norm_num) hden, inPlaces, Nat.cast_ofNat]

lemma div_places : (scaled 10 num den ((count : Int) - 1 - log 10 (num / den : ℚ))).1 /
    (scaled 10 num den ((count : Int) - 1 - log 10 (num / den : ℚ))).2 = ⌊inPlaces count (num / den)⌋₊ := by
  have hrt := ratio_scaled 10 num den (count - 1 - log 10 (num / den : ℚ))
  rw [ratio, Nat.cast_ofNat] at hrt
  rw [← floor_div_eq_div (K := ℚ), hrt, inPlaces]

section Fraction

variable (hnum : 0 < num) (hden : 0 < den)

include hnum hden

lemma significant_eq : significant count num den =
    normal count (nearestEven (inPlaces count (num / den))) (log 10 (num / den : ℚ)) := by
  simp [significant, decimalExponent_eq hnum hden, roundDiv_places hden]

/-- The two candidates with a number of digits are the decimals next to the number. -/
lemma exists_of_mem_neighbours {c : Decimal} (hc : c ∈ neighbours count num den) :
    ∃ q, (q = ⌊inPlaces count (num / den)⌋₊ ∨ q = ⌊inPlaces count (num / den)⌋₊ + 1) ∧
      c = normal count q (log 10 (num / den : ℚ)) := by
  have hnr := nearestEven_eq_or (inPlaces count (num / den))
  simp only [neighbours, decimalExponent_eq hnum hden, roundDiv_places hden, div_places, beq_iff_eq,
    mem_cons, not_mem_nil, or_false] at hc
  rcases hc with rfl | rfl
  · exact ⟨_, hnr, rfl⟩
  · refine ⟨_, ?_, rfl⟩
    split_ifs with hdw
    · exact .inr (by rw [hdw])
    · exact .inl (by rw [hnr.resolve_left hdw, Nat.add_sub_cancel])

end Fraction

/-! ### Reading back -/

/-- A positive decimal that is rounded to a number of the format. -/
structure Decimal.RoundsTo (c : Decimal) (d : Dyadic) : Prop where
  digits_pos : 0 < c.digits
  nearest_eq : nearest c.value = some d.abs

lemma exists_bits_of_nearest {q : ℚ} {y : Float} (h : nearest q = some y) :
    ∃ n, n < infinityBits ∧ y = .ofBits (UInt64.ofNat n) := by
  rw [nearest] at h
  split at h
  · exact ⟨0, by rw [infinityBits_eq]; norm_num, by exact (some.inj h).symm⟩
  · split at h
    · rename_i hlt
      exact ⟨_, hlt, (some.inj h).symm⟩
    · cases h

lemma Dyadic.nearest_of_readsBack (hden : 0 < den) (h : d.readsBack num den) :
    nearest (num / den : ℚ) = some d.abs := by
  rw [readsBack, nearestFloat?_eq hden] at h
  split at h
  · cases h
  · rename_i y hy
    split at h
    · rename_i e he
      simp only [Bool.and_eq_true, beq_iff_eq] at h
      obtain ⟨n, hn, rfl⟩ := exists_bits_of_nearest hy
      obtain ⟨hhl, hbt⟩ := toBits_of_decode he
      rw [toNat_toBits_ofBits hn] at hbt
      -- a sign would put the bits beyond those of infinity
      have hsg : e.negative = false := by
        by_contra hneg
        rw [if_pos (by simpa using hneg)] at hbt
        rw [infinityBits_eq] at hn
        omega
      rw [hsg, if_neg (by simp), zero_add, h.1, h.2] at hbt
      rw [hy, hbt, abs]
    · cases h

section

variable (h : d.Held) (hm : 0 < d.mantissa)
include h hm

/-- Seventeen digits are rounded to the number they were taken from. -/
lemma Dyadic.Held.roundsTo_significant (hnum : 0 < num) (hden : 0 < den)
    (hvl : (num / den : ℚ) = d.value) : (significant 17 num den).RoundsTo d := by
  have hv : 0 < d.value := by
    rw [← hvl]
    positivity
  obtain ⟨hlow, hhg⟩ := bounds_of_next (by norm_num) hv (nearestEven_eq_or (inPlaces 17 d.value))
  obtain ⟨-, hpos, hdc⟩ := normal_value (by norm_num) hlow hhg _
  rw [significant_eq hnum hden, hvl]
  refine ⟨hpos, h.nearest_eq hm ?_⟩
  -- half a unit of the last place is less than the distance that rounding forgives
  have hun : (0 : ℚ) < 10 ^ (log 10 d.value + 1 - (17 : Nat)) := zpow_pos (by norm_num) _
  have hpl : d.value = inPlaces 17 d.value * 10 ^ (log 10 d.value + 1 - (17 : Nat)) := by
    have hexp : ((17 : Nat) : Int) - 1 - log 10 d.value + (log 10 d.value + 1 - (17 : Nat)) = 0 := by omega
    rw [inPlaces, mul_assoc, ← zpow_add₀ (by norm_num), hexp, zpow_zero, mul_one]
  have hls : (10 : ℚ) ^ (17 - 1) ≤ inPlaces 17 d.value := (inPlaces_bounds (by norm_num) hv).1
  have hrn := abs_nearestEven_sub_le ((by positivity : (0 : ℚ) ≤ 10 ^ (17 - 1)).trans hls)
  rw [hdc]
  generalize inPlaces 17 d.value = r at hpl hls hrn
  generalize (10 : ℚ) ^ (log 10 d.value + 1 - 17) = u at hun hpl
  rw [hpl, ← sub_mul, abs_mul, abs_of_pos hun, mul_div_right_comm]
  refine mul_lt_mul_of_pos_right (hrn.trans_lt ?_) hun
  norm_num at hls ⊢
  linarith

/-- Whatever number of digits the search begins with, the decimal that it finds is rounded to the
number. -/
lemma Dyadic.Held.roundsTo_shortestFrom (hnum : 0 < num) (hden : 0 < den)
    (hvl : (num / den : ℚ) = d.value) (fuel : Nat) (hcnt : 0 < count) (hfl : count + fuel = 17) :
    (shortestFrom d.readsBack num den count fuel).RoundsTo d := by
  have hv : 0 < d.value := by
    rw [← hvl]
    positivity
  induction fuel generalizing count with
  | zero =>
    obtain rfl : count = 17 := hfl
    exact h.roundsTo_significant hm hnum hden hvl
  | succ fuel ih =>
    rw [shortestFrom]
    split
    · rename_i c hhit
      obtain ⟨q, hq, rfl⟩ := exists_of_mem_neighbours hnum hden (mem_of_find?_eq_some hhit)
      have hac := find?_some hhit
      rw [hvl] at hq hac ⊢
      obtain ⟨hlow, hhg⟩ := bounds_of_next hcnt hv hq
      obtain ⟨hdg, hpos, -⟩ := normal_value hcnt hlow hhg _
      refine ⟨hpos, ?_⟩
      rw [← ratio_toRatio hdg]
      exact nearest_of_readsBack (den_scaled_pos _ (by norm_num) one_pos _) hac
    · exact ih (succ_pos count) (by omega)

lemma Dyadic.Held.roundsTo_shortest : (shortest d).RoundsTo d := by
  have hden : 0 < d.magnitude.2 := den_scaled_pos _ two_pos one_pos _
  have hv : (d.magnitude.1 / d.magnitude.2 : ℚ) = d.value := d.ratio_magnitude
  have hnum : 0 < d.magnitude.1 := by
    by_contra hz
    rw [Nat.eq_zero_of_not_pos hz, Nat.cast_zero, zero_div] at hv
    exact (mul_pos (by exact_mod_cast hm) (zpow_pos two_pos _)).ne hv
  have hsr := h.roundsTo_shortestFrom hm hnum hden hv 16 one_pos rfl
  rwa [shortest]

end

/-! ### Numbers and their text

An integer is read back from its digits. A finite number that is not an integer is written as digits
with a point among them, or with an exponent, and either form stands for the same decimal; reading
rounds that decimal, which is the shortest one of the number, to the number again.
-/

variable {c : Char} {ds rest fs rest' rest'' : List Char} {power : Option Int} {r : Json × List Char}

/-! ### Digits -/

lemma ofDigits_eq (ds : List Char) : ofDigits ds = ofDigitChars 10 ds 0 := rfl

lemma ofDigits_append (a b : List Char) : ofDigits (a ++ b) = 10 ^ b.length * ofDigits a + ofDigits b := by
  rw [ofDigits_eq, ofDigitChars_append, ofDigitChars_eq_ofDigitChars_zero, ofDigits_eq, ofDigits_eq]

lemma ofDigits_replicate (n : Nat) : ofDigits (replicate n '0') = 0 := by
  rw [ofDigits_eq, ofDigitChars_replicate_zero, mul_zero]

lemma ofDigits_append_zeros (ds : List Char) (n : Nat) : ofDigits (ds ++ replicate n '0') = 10 ^ n * ofDigits ds := by
  rw [ofDigits_append, ofDigits_replicate, length_replicate, add_zero]

lemma ofDigits_zeros_append (n : Nat) (ds : List Char) : ofDigits (replicate n '0' ++ ds) = ofDigits ds := by
  rw [ofDigits_append, ofDigits_replicate, mul_zero, zero_add]

lemma isDigit_of_mem_zeros (h : c ∈ replicate n '0') : c.isDigit := by
  rw [eq_of_mem_replicate h]
  decide

lemma ofDigits_repr (n : Nat) : ofDigits n.repr.toList = n := by
  rw [toList_repr, ofDigits_eq, ofDigitChars_ten_toDigits]

lemma isDigit_of_mem_repr (h : c ∈ n.repr.toList) : c.isDigit := by
  rw [toList_repr] at h
  exact isDigit_of_mem_toDigits (by norm_num) le_rfl h

lemma exists_repr_eq_cons (hn : 0 < n) : ∃ c ds, n.repr.toList = c :: ds ∧ c ≠ '0' := by
  rw [toList_repr]
  induction n using Nat.strong_induction_on with
  | _ n ih =>
    rcases lt_or_ge n 10 with hlt | hge
    · exact ⟨n.digitChar, [], toDigits_of_lt_base hlt, by simpa using hn.ne'⟩
    · obtain ⟨c, ds, hds, hc⟩ := ih (n / 10) (by omega) (by omega)
      exact ⟨c, ds ++ [(n % 10).digitChar], by rw [toDigits_of_base_le (by norm_num) hge, hds, cons_append], hc⟩

/-! ### The digits of a decimal -/

/-- The digits of a decimal as they are written: the first is not a zero, and with the exponent they
give its value. -/
structure Decimal.Written (d : Decimal) (digits : List Char) : Prop where
  isDigit : ∀ c ∈ digits, c.isDigit = true
  first : ∃ c ds, digits = c :: ds ∧ c ≠ '0'
  value_eq : d.value = ofDigits digits * 10 ^ (d.exponent + 1 - digits.length)

/-- Digits are the ones that remain without the zeros at their end, and those zeros. -/
lemma exists_stripZeros (ds : List Char) : ∃ z, ds = stripZeros ds ++ replicate z '0' := by
  have hsp := takeWhile_append_dropWhile (p := (· == '0')) (l := ds.reverse)
  have hzr : ds.reverse.takeWhile (· == '0') = replicate (ds.reverse.takeWhile (· == '0')).length '0' := by
    refine eq_replicate_iff.2 ⟨rfl, fun c hc => ?_⟩
    simpa using all_eq_true.1 all_takeWhile c hc
  refine ⟨(ds.reverse.takeWhile (· == '0')).length, ?_⟩
  rw [stripZeros, ← reverse_replicate, ← hzr, ← reverse_append, hsp, reverse_reverse]

lemma Decimal.written_stripZeros {d : Decimal} (hd : 0 < d.digits) : d.Written (stripZeros d.digits.repr.toList) := by
  obtain ⟨z, hz⟩ := exists_stripZeros d.digits.repr.toList
  obtain ⟨c, ds, hc, hne⟩ := exists_repr_eq_cons hd
  constructor
  · intro c' hc'
    exact isDigit_of_mem_repr (by rw [hz]; exact mem_append_left _ hc')
  · cases hst : stripZeros d.digits.repr.toList with
    | nil =>
      -- nothing but zeros is left, and the first digit is none
      rw [hst, hc] at hz
      exact absurd (eq_of_mem_replicate (hz ▸ mem_cons_self)) hne
    | cons c' ds' =>
      rw [hst, hc, cons_append, cons.injEq] at hz
      exact ⟨c', ds', rfl, hz.1 ▸ hne⟩
  · have hlen : digitCount d.digits = (stripZeros d.digits.repr.toList).length + z := by
      rw [digitCount, ← String.length_toList]
      conv_lhs => rw [hz]
      rw [length_append, length_replicate]
    have hdg : d.digits = 10 ^ z * ofDigits (stripZeros d.digits.repr.toList) := by
      conv_lhs => rw [← ofDigits_repr d.digits, hz]
      rw [ofDigits_append_zeros]
    have hcs : (d.digits : ℚ) = 10 ^ z * ofDigits (stripZeros d.digits.repr.toList) := by exact_mod_cast hdg
    rw [value, hcs, mul_comm (10 ^ z), mul_assoc, ← zpow_natCast, ← zpow_add₀ (by norm_num)]
    congr 2
    omega

end TensorToolchain.Number

namespace TensorToolchain.Json

open List Number

/-! ### The parts of a number -/

/-- What can follow a value in a text. -/
def Closes (rest : List Char) : Prop := ∀ c ∈ rest.head?, c = ',' ∨ c = ']' ∨ c = '\x7d'

lemma closes_nil : Closes [] := by simp [Closes]

lemma digitRun_append (hds : ∀ c ∈ ds, c.isDigit) (hrest : ∀ c ∈ rest.head?, c.isDigit = false) :
    digitRun (ds ++ rest) = (ds, rest) := by
  rw [digitRun, span_eq_takeWhile_dropWhile, takeWhile_append_of_pos hds, dropWhile_append_of_pos hds]
  cases rest with
  | nil => simp
  | cons c cs => simp [hrest c (by simp)]

lemma Closes.isDigit_eq_false (h : Closes rest) : ∀ c ∈ rest.head?, c.isDigit = false := by
  intro c hc
  rcases h c hc with rfl | rfl | rfl <;> decide

lemma fraction_point (hfs : ∀ c ∈ fs, c.isDigit) (hne : fs ≠ [])
    (hrest : ∀ c ∈ rest.head?, c.isDigit = false) : fraction ('.' :: (fs ++ rest)) = (fs, rest) := by
  rw [fraction, digitRun_append hfs hrest]
  cases fs with
  | nil => exact absurd rfl hne
  | cons c cs => rfl

lemma fraction_none (hrest : ∀ c ∈ rest.head?, c ≠ '.') : fraction rest = ([], rest) := by
  cases rest with
  | nil => rfl
  | cons c cs =>
    have hc : c ≠ '.' := hrest c (by simp)
    rw [fraction]
    rintro r hr
    exact hc (cons.inj hr).1

lemma exponent_none (h : Closes rest) : exponent rest = (none, rest) := by
  cases rest with
  | nil => rfl
  | cons c cs =>
    rcases h c (by simp) with rfl | rfl | rfl <;> rfl

lemma exponent_signed (negative : Bool) (hds : ∀ c ∈ ds, c.isDigit) (hne : ds ≠ []) (h : Closes rest) :
    exponent ('e' :: (if negative then '-' else '+') :: (ds ++ rest)) =
      (some (if negative then -(ofDigits ds : Int) else ofDigits ds), rest) := by
  have hrun := digitRun_append hds h.isDigit_eq_false
  cases ds with
  | nil => exact absurd rfl hne
  | cons c cs =>
    rw [cons_append] at hrun ⊢
    cases negative <;> simp [exponent, hrun]

/-- An exponent as it is written: its mark and sign, and at least two digits. -/
def exponentText (e : Int) : String :=
  (if e < 0 then "e-" else "e+") ++ (if e.natAbs.repr.length < 2 then "0" ++ e.natAbs.repr else e.natAbs.repr)

lemma scientific_eq (c : Char) (ds : List Char) (e : Int) : scientific (c :: ds) e =
    .ofList ([c] ++ if ds = [] then [] else '.' :: ds) ++ exponentText e := by
  cases ds <;> simp [scientific, exponentText, String.append_assoc]

lemma exists_exponentText_eq (e : Int) : ∃ cs, (exponentText e).toList = 'e' :: cs := by
  rw [exponentText, String.toList_append]
  split
  · exact ⟨_, rfl⟩
  · exact ⟨_, rfl⟩

lemma exists_power (n : Nat) : ∃ k,
    (if n.repr.length < 2 then "0" ++ n.repr else n.repr).toList = replicate k '0' ++ n.repr.toList := by
  split
  · exact ⟨1, String.toList_append⟩
  · exact ⟨0, rfl⟩

lemma exponent_exponentText (e : Int) (h : Closes rest) :
    exponent ((exponentText e).toList ++ rest) = (some e, rest) := by
  obtain ⟨k, hpw⟩ := exists_power e.natAbs
  have hdg : ∀ c ∈ replicate k '0' ++ e.natAbs.repr.toList, c.isDigit := by
    intro c hc
    rcases mem_append.1 hc with hc | hc
    · exact isDigit_of_mem_zeros hc
    · exact isDigit_of_mem_repr hc
  have hne : replicate k '0' ++ e.natAbs.repr.toList ≠ [] := by simp [Nat.toDigits_ne_nil]
  have hsg := exponent_signed (decide (e < 0)) hdg hne h
  rw [ofDigits_zeros_append, ofDigits_repr] at hsg
  rw [exponentText, String.toList_append, hpw]
  by_cases he : e < 0
  · rw [decide_eq_true he, Int.ofNat_natAbs_of_nonpos he.le, neg_neg] at hsg
    rw [if_pos he]
    exact hsg
  · rw [decide_eq_false he, Int.natAbs_of_nonneg (not_lt.1 he)] at hsg
    rw [if_neg he]
    exact hsg

section Parts

variable (negative : Bool) (hds : ∀ c ∈ ds, c.isDigit)
  (hfirst : ds = ['0'] ∨ ∃ c cs, ds = c :: cs ∧ c ≠ '0') (hrest : ∀ c ∈ rest.head?, c.isDigit = false)
  (hfraction : fraction rest = (fs, rest')) (hexponent : exponent rest' = (power, rest''))

include hds hfirst hrest hfraction hexponent

lemma magnitude_parts : magnitude negative (ds ++ rest) = if fs.isEmpty && power.isNone then
        some (.int (if negative then -(ofDigits ds : Int) else ofDigits ds), rest'') else
        some (.float (if negative then -ofDecimal (ofDigits (ds ++ fs)) (power.getD 0 - fs.length)
          else ofDecimal (ofDigits (ds ++ fs)) (power.getD 0 - fs.length)), rest'') := by
  rcases hfirst with rfl | ⟨c, cs, rfl, hc⟩
  · rw [singleton_append, magnitude]
    simp [hfraction, hexponent]
  · have hrun := digitRun_append hds hrest
    rw [magnitude, hrun]
    · simp [hfraction, hexponent]
    · intro r hr
      exact hc (cons.inj hr).1

/-- The number that a decimal is read as. -/
def readAs (negative : Bool) (q : ℚ) : Json :=
  .float (if negative then -(nearest q).getD (1.0 / 0.0) else (nearest q).getD (1.0 / 0.0))

lemma magnitude_eq_readAs {q : ℚ} (hfr : (fs.isEmpty && power.isNone) = false)
    (hv : q = ofDigits (ds ++ fs) * 10 ^ (power.getD 0 - (fs.length : Int))) :
    magnitude negative (ds ++ rest) = some (readAs negative q, rest'') := by
  rw [magnitude_parts negative hds hfirst hrest hfraction hexponent, hfr, ofDecimal_eq, ← hv]
  rfl

end Parts

lemma magnitude_repr (negative : Bool) (n : Nat) (h : Closes rest) :
    magnitude negative (n.repr.toList ++ rest) = some (.int (if negative then -(n : Int) else n), rest) := by
  have hfirst : n.repr.toList = ['0'] ∨ ∃ c cs, n.repr.toList = c :: cs ∧ c ≠ '0' := by
    rcases eq_zero_or_pos n with rfl | hn
    · exact .inl rfl
    · exact .inr (exists_repr_eq_cons hn)
  have hpn : ∀ c ∈ rest.head?, c ≠ '.' := by
    intro c hc
    rcases h c hc with rfl | rfl | rfl <;> decide
  rw [magnitude_parts negative (fun _ => isDigit_of_mem_repr) hfirst h.isDigit_eq_false (fraction_none hpn)
    (exponent_none h), ofDigits_repr]
  rfl

/-! ### Finite numbers -/

section Layouts

variable {d : Decimal} {digits rest : List Char} (hw : d.Written digits) (h : Closes rest) (negative : Bool)

include hw h

lemma magnitude_positional_of_nonneg (he : 0 ≤ d.exponent) :
    magnitude negative ((positional digits d.exponent true).toList ++ rest) = some (readAs negative d.value, rest) := by
  obtain ⟨c, ds, hdg, hc⟩ := hw.first
  obtain ⟨e, he⟩ := Int.eq_ofNat_of_zero_le he
  have hv := hw.value_eq
  rcases lt_or_ge (e + 1) digits.length with hlt | hge
  · -- the point stands among the digits
    have haft : digits.drop (e + 1) ≠ [] := by
      rw [ne_eq, drop_eq_nil_iff]
      omega
    have htx : (positional digits d.exponent true).toList ++ rest =
        digits.take (e + 1) ++ ('.' :: (digits.drop (e + 1) ++ rest)) := by
      simp [positional, he, haft, Nat.sub_eq_zero_of_le hlt.le]
    rw [htx]
    refine magnitude_eq_readAs negative (fun c hc => hw.isDigit c (mem_of_mem_take hc)) (.inr ?_)
      (by simp) (fraction_point (fun c hc => hw.isDigit c (mem_of_mem_drop hc)) haft
      h.isDigit_eq_false) (exponent_none h) (by simpa using haft) ?_
    · exact ⟨c, ds.take e, by rw [hdg, take_succ_cons], hc⟩
    · rw [hv, take_append_drop, length_drop, Option.getD_none]
      congr 2
      omega
  · -- zeros fill the places up to the point
    have htx : (positional digits d.exponent true).toList ++ rest =
        (digits ++ replicate (e + 1 - digits.length) '0') ++ ('.' :: (['0'] ++ rest)) := by
      simp [positional, he, drop_eq_nil_of_le hge, take_of_length_le hge]
    rw [htx]
    refine magnitude_eq_readAs negative ?_ (.inr ?_) (by simp)
      (fraction_point (by simp) (by simp) h.isDigit_eq_false) (exponent_none h) rfl ?_
    · intro c hc
      rcases mem_append.1 hc with hc | hc
      · exact hw.isDigit c hc
      · exact isDigit_of_mem_zeros hc
    · exact ⟨c, ds ++ replicate _ '0', by rw [hdg, cons_append], hc⟩
    · rw [hv, append_assoc, ← replicate_succ', ofDigits_append_zeros]
      push_cast
      rw [mul_comm (10 ^ _), mul_assoc, ← zpow_natCast, ← zpow_add₀ (by norm_num)]
      congr 2
      simp
      omega

lemma magnitude_positional_of_neg (he : d.exponent < 0) :
    magnitude negative ((positional digits d.exponent true).toList ++ rest) = some (readAs negative d.value, rest) := by
  have htx : (positional digits d.exponent true).toList ++ rest =
      ['0'] ++ ('.' :: ((replicate (-d.exponent - 1).toNat '0' ++ digits) ++ rest)) := by
    simp [positional, not_le.2 he]
  rw [htx]
  have hdg : ∀ c ∈ replicate (-d.exponent - 1).toNat '0' ++ digits, c.isDigit := by
    intro c hc
    rcases mem_append.1 hc with hc | hc
    · exact isDigit_of_mem_zeros hc
    · exact hw.isDigit c hc
  have hne : replicate (-d.exponent - 1).toNat '0' ++ digits ≠ [] := by
    obtain ⟨c, ds, rfl, -⟩ := hw.first
    simp
  refine magnitude_eq_readAs negative (by simp) (.inl rfl) (by simp)
    (fraction_point hdg hne h.isDigit_eq_false) (exponent_none h) (by simpa using hne) ?_
  rw [hw.value_eq, ← append_assoc, singleton_append, ← replicate_succ, ofDigits_zeros_append,
    length_append, length_replicate, Option.getD_none]
  congr 2
  omega

lemma magnitude_scientific : magnitude negative ((scientific digits d.exponent).toList ++ rest) =
      some (readAs negative d.value, rest) := by
  obtain ⟨c, ds, hdg, hc⟩ := hw.first
  obtain ⟨marked, hmr⟩ := exists_exponentText_eq d.exponent
  have hv := hw.value_eq
  have his := hw.isDigit
  subst hdg
  have hfirst : [c] = ['0'] ∨ ∃ c' cs, [c] = c' :: cs ∧ c' ≠ '0' := .inr ⟨c, [], rfl, hc⟩
  have hone : ∀ c' ∈ [c], c'.isDigit = true := fun c' hc' => his c' (by simp_all)
  rw [scientific_eq, String.toList_append, String.toList_ofList, append_assoc]
  cases ds with
  | nil =>
    refine magnitude_eq_readAs negative hone hfirst (by simp [hmr])
      (fraction_none (by simp [hmr])) (exponent_exponentText d.exponent h) rfl ?_
    rw [hv]
    simp
  | cons c' ds =>
    have hfs : ∀ x ∈ c' :: ds, x.isDigit = true := fun x hx => his x (mem_cons_of_mem c hx)
    rw [append_assoc]
    refine magnitude_eq_readAs negative hone hfirst (by simp)
      (fraction_point hfs (by simp) (by simp [hmr])) (exponent_exponentText d.exponent h) rfl ?_
    rw [hv, singleton_append, Option.getD_some, length_cons]
    push_cast
    ring_nf

/-- However a decimal is laid out, it is read as the number nearest to it. -/
lemma magnitude_layout (l : Layout) (hl : l.keepFraction) :
    magnitude negative ((if l.leastPositional ≤ d.exponent && d.exponent < l.endPositional then
      positional digits d.exponent l.keepFraction else scientific digits d.exponent).toList ++ rest) =
        some (readAs negative d.value, rest) := by
  rw [hl]
  split
  · rcases le_or_gt 0 d.exponent with he | he
    · exact magnitude_positional_of_nonneg hw h negative he
    · exact magnitude_positional_of_neg hw h negative he
  · exact magnitude_scientific hw h negative

end Layouts

/-- The magnitude of a finite number as it is written. -/
def magnitudeText (d : Number.Dyadic) : String :=
  if d.mantissa == 0 then "0.0" else Layout.render ⟨-4, 16, true⟩ (shortest d)

lemma zero_eq_abs {d : Number.Dyadic} (h : d.Held) (hm : d.mantissa = 0) : (0.0 : Float) = d.abs := by
  have hls : d.exponent = -1074 := h.leading.resolve_left (by rw [hm]; norm_num)
  rw [Dyadic.abs, hm, hls]
  rfl

lemma magnitude_magnitudeText {d : Number.Dyadic} (hd : d.Held) (negative : Bool) (h : Closes rest) :
    magnitude negative ((magnitudeText d).toList ++ rest) =
      some (.float (if negative then -d.abs else d.abs), rest) := by
  rw [magnitudeText]
  split
  · rename_i hz
    rw [beq_iff_eq] at hz
    have htx : "0.0".toList ++ rest = ['0'] ++ ('.' :: (['0'] ++ rest)) := rfl
    rw [htx, magnitude_eq_readAs negative (q := 0) (by simp) (.inl rfl) (by simp)
      (fraction_point (by simp) (by simp) h.isDigit_eq_false) (exponent_none h) rfl (by simp [ofDigits]),
      readAs, nearest, if_pos rfl, Option.getD_some, zero_eq_abs hd hz]
  · rename_i hpos
    rw [beq_iff_eq] at hpos
    obtain ⟨hdg, hnr⟩ := hd.roundsTo_shortest (pos_of_ne_zero hpos)
    rw [Layout.render, magnitude_layout (Decimal.written_stripZeros hdg) h negative _ rfl, readAs, hnr,
      Option.getD_some]

/-! ### Scalars -/

variable {text : List Char}

lemma exists_digit_of_magnitude {negative : Bool} (h : magnitude negative text = some r) :
    ∃ c cs, text = c :: cs ∧ c.isDigit := by
  cases text with
  | nil => cases h
  | cons c cs =>
    by_cases hc : c.isDigit
    · exact ⟨c, cs, rfl, hc⟩
    · have hno : ∀ d ∈ ([] : List Char), d.isDigit := by simp
      have hrun : digitRun (c :: cs) = ([], c :: cs) := digitRun_append hno (by simpa using hc)
      rw [magnitude, hrun] at h
      · cases h
      · intro r hr
        exact hc (by rw [(cons.inj hr).1]; decide)

lemma scalar_of_magnitude (h : magnitude false text = some r) : scalar text = some r := by
  obtain ⟨c, cs, rfl, hc⟩ := exists_digit_of_magnitude h
  have hne (w : Char) (hw : w.isDigit = false) : (w == c) = false := by
    rw [beq_eq_false_iff_ne]
    rintro rfl
    simp [hw] at hc
  have hmn : c ≠ '-' := by
    rintro rfl
    simp at hc
  simp [scalar, afterWord?, hne, h, hmn]

lemma scalar_of_negative (h : magnitude true text = some r) : scalar ('-' :: text) = some r := by
  obtain ⟨c, cs, rfl, hc⟩ := exists_digit_of_magnitude h
  have hne : ('I' == c) = false := by
    rw [beq_eq_false_iff_ne]
    rintro rfl
    simp at hc
  simp [scalar, afterWord?, hne, h]

lemma scalar_int (n : Int) (h : Closes rest) : scalar ((toString n).toList ++ rest) = some (.int n, rest) := by
  cases n with
  | ofNat n => exact scalar_of_magnitude (magnitude_repr false n h)
  | negSucc n =>
    have htx : (toString (Int.negSucc n)).toList ++ rest = '-' :: ((n + 1).repr.toList ++ rest) := by
      rw [← cons_append]
      congr 1
      exact String.toList_append
    rw [htx]
    exact scalar_of_negative (magnitude_repr true (n + 1) h)

lemma scalar_float (x : Float) (h : Closes rest) : scalar ((floatText x).toList ++ rest) = some (.float x, rest) := by
  rw [floatText]
  split
  · rename_i hnan
    rw [eq_of_isNaN hnan (y := 0.0 / 0.0) (by decide +kernel)]
    rfl
  · rename_i hnan
    split
    · rename_i hinf
      split_ifs with hneg
      · rw [eq_of_isInf hinf (y := -1.0 / 0.0) (by decide +kernel) (by simp only [hneg]; decide +kernel)]
        rfl
      · rw [eq_of_isInf hinf (y := 1.0 / 0.0) (by decide +kernel) (by simp only [hneg]; decide +kernel)]
        rfl
    · rename_i hinf
      obtain ⟨d, hd⟩ := exists_decode (by simpa using hnan) (by simpa using hinf)
      obtain ⟨hhl, hx⟩ := eq_of_decode hd
      have htx : readable x = if d.negative then "-" ++ magnitudeText d else magnitudeText d := by
        rw [readable, withSign, hd]
        rfl
      have hrd := magnitude_magnitudeText hhl d.negative h
      rw [← hx] at hrd
      rw [htx]
      cases hneg : d.negative with
      | true =>
        rw [hneg] at hrd
        rw [if_pos rfl, String.toList_append]
        exact scalar_of_negative hrd
      | false =>
        rw [hneg] at hrd
        exact scalar_of_magnitude hrd

end TensorToolchain.Json
