import TensorToolchain.Proofs.Microkernel.Alignment

/-!
# Rescaled sums

A sum is multiplied with the scale in 64 bits, shifted right to one bit more than the result has,
halved with rounding, moved by the zero point and clamped. For shifts from 33 on none of these steps
leaves the range of its type, and the two shifts together round the exact quotient half up.
-/

namespace TensorToolchain.Microkernel

open List Statement

variable {m : Machine} {i shift zeroPoint : Int} {sum scale : BitVec 32}

/-! ### Execution without overflow -/

/-- Within the range of a signed type. -/
def fits (bits : Nat) (v : Int) : Bool := -2 ^ (bits - 1) ≤ v && v < 2 ^ (bits - 1)

/-- An operation or a conversion of a statement that rescales leaves the range of its type. -/
def Statement.overflows (m : Machine) : Statement → Bool
  | rescale output shift =>
    match m.values (sumName output), m.values "scale_val" with
    | some sum, some scale =>
      !fits 64 (sum.toInt * scale.toInt) || !fits 32 (sum.toInt * scale.toInt / 2 ^ (shift - 1).toNat)
    | _, _ => false
  | halve output => (m.values (resultName output)).any fun value => !fits 32 (value.toInt + 1)
  | saturate output zeroPoint => (m.values (resultName output)).any fun value => !fits 32 (value.toInt + zeroPoint)
  | _ => false

def Statement.execExact (m : Machine) (s : Statement) : Option Machine := if s.overflows m then none else s.exec m

/-- Execute statements in order as long as none overflows. -/
def runExact (body : List Statement) (m : Machine) : Option Machine := body.foldlM execExact m

lemma runExact_cons {s : Statement} (next : Machine) (body : List Statement) (h : s.execExact m = some next) :
    runExact (s :: body) m = runExact body next := by
  simp only [runExact, foldlM_cons, h, Option.bind_eq_bind, Option.bind_some]

/-! ### Ranges -/

lemma abs_product_le (a b : BitVec 32) : |a.toInt * b.toInt| ≤ 2 ^ 62 := by
  have habs (c : BitVec 32) : |c.toInt| ≤ 2 ^ 31 := abs_le.mpr ⟨c.le_toInt, c.toInt_lt.le⟩
  rw [abs_mul]
  exact mul_le_mul (habs a) (habs b) (abs_nonneg _) (by decide)

lemma toInt_product (a b : BitVec 32) : (a.signExtend 64 * b.signExtend 64).toInt = a.toInt * b.toInt := by
  have := abs_le.mp (abs_product_le a b)
  rw [BitVec.toInt_mul, BitVec.toInt_signExtend_of_le (by decide), BitVec.toInt_signExtend_of_le (by decide)]
  exact Int.bmod_eq_of_le (by norm_num; omega) (by norm_num; omega)

lemma abs_shifted_le (h : 33 ≤ shift) (a b : BitVec 32) : |a.toInt * b.toInt / 2 ^ (shift - 1).toNat| ≤ 2 ^ 30 := by
  obtain ⟨k, hk⟩ : ∃ k, (shift - 1).toNat = 32 + k := ⟨(shift - 33).toNat, by omega⟩
  have hproduct := abs_le.mp (abs_product_le a b)
  have hpos : (0 : Int) < 2 ^ 32 * 2 ^ k := by positivity
  have hone : (1 : Int) ≤ 2 ^ k := one_le_pow₀ (by decide)
  rw [hk, pow_add, abs_le]
  constructor
  · rw [Int.le_ediv_iff_mul_le hpos]
    nlinarith
  · exact Int.le_of_lt_add_one (Int.ediv_lt_of_lt_mul hpos (by nlinarith))

lemma fits_of_abs_le {v : Int} (h : |v| ≤ 2 ^ 30 + 128) : fits 32 v := by
  have := abs_le.mp h
  simp only [fits, Bool.and_eq_true, decide_eq_true_eq]
  omega

lemma toInt_ofInt_of_fits {v : Int} (h : fits 32 v) : (BitVec.ofInt 32 v).toInt = v := by
  simp only [fits, Bool.and_eq_true, decide_eq_true_eq] at h
  exact BitVec.toInt_ofInt_eq_self (by decide) h.1 h.2

lemma setWidth_eq_ofInt (x : BitVec 64) : x.setWidth 32 = BitVec.ofInt 32 x.toInt := by
  apply BitVec.eq_of_toNat_eq
  simp only [BitVec.toNat_setWidth, BitVec.toNat_ofInt, BitVec.toInt_eq_toNat_cond]
  split_ifs <;> omega

/-! ### One result -/

/-- A product divided by a power of two, rounded half up. -/
def rounded (product shift : Int) : Int := (product + 2 ^ (shift - 1).toNat) / 2 ^ shift.toNat

lemma halved_eq_rounded (product : Int) (h : 1 ≤ shift) :
    (product / 2 ^ (shift - 1).toNat + 1) / 2 = rounded product shift := by
  have hnext : shift.toNat = (shift - 1).toNat + 1 := by omega
  have hone : product / 2 ^ (shift - 1).toNat + 1 = (product + 2 ^ (shift - 1).toNat) / 2 ^ (shift - 1).toNat := by
    rw [Int.add_ediv_of_dvd_right dvd_rfl, Int.ediv_self (by positivity)]
  rw [hone, Int.ediv_ediv_of_nonneg (by positivity), rounded, hnext, pow_succ]

/-- A result after the statements that rescale its sum. -/
def rescaledSum (sum scale : BitVec 32) (shift zeroPoint : Int) : BitVec 32 :=
  .ofInt 32 (max (-128) (min 127 (rounded (sum.toInt * scale.toInt) shift + zeroPoint)))

lemma runExact_rescaled (hsum : m.values (sumName i) = some sum) (hscale : m.values "scale_val" = some scale)
    (hfree : m.values (resultName i) = none) (hshift : 33 ≤ shift ∧ shift ≤ 63)
    (hzero : -128 ≤ zeroPoint ∧ zeroPoint ≤ 127) : runExact [.rescale i shift, .halve i, .saturate i zeroPoint] m =
      some (m.assign (resultName i) (rescaledSum sum scale shift zeroPoint)) := by
  have hproduct := abs_le.mp (abs_product_le sum scale)
  have hbound := abs_le.mp (abs_shifted_le hshift.1 sum scale)
  rw [rescaledSum, ← halved_eq_rounded _ (by omega)]
  set q := sum.toInt * scale.toInt / 2 ^ (shift - 1).toNat with hq
  have hwide : fits 64 (sum.toInt * scale.toInt) := by simp [fits]; omega
  have hfits : fits 32 q := fits_of_abs_le (abs_le.mpr (by omega))
  have hnext : fits 32 (q + 1) := fits_of_abs_le (abs_le.mpr (by omega))
  have hhalf : fits 32 ((q + 1) / 2) := fits_of_abs_le (abs_le.mpr (by omega))
  have hmoved : fits 32 ((q + 1) / 2 + zeroPoint) := fits_of_abs_le (abs_le.mpr (by omega))
  -- What the three statements make of the value, in words.
  have hfirst : ((sum.signExtend 64 * scale.signExtend 64).sshiftRight (shift - 1).toNat).setWidth 32 =
      .ofInt 32 q := by
    rw [setWidth_eq_ofInt, BitVec.toInt_sshiftRight, toInt_product, Int.shiftRight_eq_div_pow, hq]
    norm_cast
  have hsecond : (BitVec.ofInt 32 q + 1#32).sshiftRight 1 = .ofInt 32 ((q + 1) / 2) := by
    have hadd : BitVec.ofInt 32 q + 1#32 = .ofInt 32 (q + 1) := (BitVec.ofInt_add q 1).symm
    apply BitVec.eq_of_toInt_eq
    rw [hadd, BitVec.toInt_sshiftRight, toInt_ofInt_of_fits hnext, toInt_ofInt_of_fits hhalf, Int.shiftRight_eq_div_pow]
    norm_cast
  have hthird : (BitVec.ofInt 32 ((q + 1) / 2) + .ofInt 32 zeroPoint).toInt = (q + 1) / 2 + zeroPoint := by
    rw [← BitVec.ofInt_add, toInt_ofInt_of_fits hmoved]
  have hguard : 1 ≤ shift ∧ shift ≤ 64 := by omega
  have hrescale : (rescale i shift).execExact m = some (m.assign (resultName i) (.ofInt 32 q)) := by
    simp [-Int.pred_toNat, execExact, overflows, hsum, hscale, hwide, ← hq, hfits, exec, hguard, hfirst,
      Machine.declare, hfree]
  have hhalve : (halve i).execExact (m.assign (resultName i) (.ofInt 32 q)) =
      some (m.assign (resultName i) (.ofInt 32 ((q + 1) / 2))) := by
    simp [execExact, overflows, toInt_ofInt_of_fits hfits, hnext, exec, hsecond, Machine.assign]
  have hsaturate : (saturate i zeroPoint).execExact (m.assign (resultName i) (.ofInt 32 ((q + 1) / 2))) =
      some (m.assign (resultName i) (.ofInt 32 (max (-128) (min 127 ((q + 1) / 2 + zeroPoint))))) := by
    simp [-BitVec.toInt_add, execExact, overflows, toInt_ofInt_of_fits hhalf, hmoved, exec, hthird, Machine.assign]
  rw [runExact_cons _ _ hrescale, runExact_cons _ _ hhalve, runExact_cons _ _ hsaturate]
  rfl

/-! ### All results -/

lemma resultName_ne_sumName (i j : Int) : resultName i ≠ sumName j := fun h => by
  simpa [resultName, sumName] using congrArg (·.toList.head?) h

lemma resultName_ne_scale (i : Int) : resultName i ≠ "scale_val" := fun h => by
  simpa [resultName] using congrArg (·.toList.head?) h

lemma sumName_ne_scale (i : Int) : sumName i ≠ "scale_val" := fun h => by
  simpa [sumName] using congrArg (·.toList.tail.head?) h

/-- The statements that rescale the sums overflow nowhere, for any sums, scale and shift from 33 to
63, and leave in each result its sum times the scale, divided by the power of two with rounding half
up, moved by the zero point and clamped to eight bits. -/
theorem results_after_rescaling (m : Machine) (outputs shift zeroPoint : Int) (sums : Int → BitVec 32)
    (hshift : 33 ≤ shift ∧ shift ≤ 63) (hzero : -128 ≤ zeroPoint ∧ zeroPoint ≤ 127)
    (hsums : ∀ i, 0 ≤ i → i < outputs → m.values (sumName i) = some (sums i))
    (hscale : m.values "scale_val" = none) (hfree : ∀ i, m.values (resultName i) = none) :
    ∃ last, runExact (rescaleStatements outputs shift zeroPoint) m = some last ∧
      ∀ i, 0 ≤ i → i < outputs → last.values (resultName i) = some (.ofInt 32 (max (-128) (min 127
        (((sums i).toInt * m.scale.toInt + 2 ^ (shift - 1).toNat) / 2 ^ shift.toNat + zeroPoint)))) := by
  let loaded := m.assign "scale_val" m.scale
  have hload : loadScale.execExact m = some loaded := by
    simp [execExact, overflows, exec, Machine.declare, hscale, loaded]
  have hkept (n : String) (h : n ≠ "scale_val") : loaded.values n = m.values n := Function.update_of_ne h _ _
  obtain ⟨values, hrun, hlast, -⟩ := foldlM_assigns execExact
    (fun i => [.rescale i shift, .halve i, .saturate i zeroPoint]) resultName
    (fun i => rescaledSum (sums i) m.scale shift zeroPoint) (below outputs) loaded
    ((below_nodup _).map fun _ _ => resultName_injective) fun i hi values hvs => by
      have hbelow := mem_below.mp hi
      refine runExact_rescaled ?_ ?_ ?_ hshift hzero
      · exact (hvs _ (.inl fun j _ => (resultName_ne_sumName j i).symm)).trans
          ((hkept _ (sumName_ne_scale i)).trans (hsums i hbelow.1 hbelow.2))
      · exact (hvs _ (.inl fun j _ => (resultName_ne_scale j).symm)).trans (by simp [loaded])
      · exact (hvs _ (.inr rfl)).trans ((hkept _ (resultName_ne_scale i)).trans (hfree i))
  refine ⟨{ loaded with values }, ?_, fun i h0 hi => hlast i (mem_below.mpr ⟨h0, hi⟩)⟩
  rw [rescaleStatements, runExact_cons _ _ hload]
  exact hrun

/-- The largest product, and one that rounds half up. -/
theorem two_results_rescaled :
    let sums : Int → BitVec 32 := fun i => if i = 0 then .intMin 32 else 1
    let m : Machine := {
      tensor := fun _ => 0, kernel := fun _ => 0, output := fun _ => 0, bias := 0, scale := .intMin 32
      values := fun n => ((below 2).find? (sumName · == n)).map sums }
    ∃ last, runExact (rescaleStatements 2 33 (-128)) m = some last ∧
      last.values "requant_0" = some (.ofInt 32 127) ∧ last.values "requant_1" = some (.ofInt 32 (-128)) := by
  intro sums m
  have hother (n : String) (h : ∀ j, sumName j ≠ n) : m.values n = none :=
    Option.map_eq_none_iff.mpr (find?_eq_none.2 fun j _ hj => h j (beq_iff_eq.mp hj))
  obtain ⟨last, hrun, hlast⟩ := results_after_rescaling m 2 33 (-128) sums (by decide) (by decide)
    (fun i h0 hi => by
      obtain rfl | rfl : i = 0 ∨ i = 1 := by omega
      all_goals rfl)
    (hother _ sumName_ne_scale) (fun i => hother _ fun j => (resultName_ne_sumName i j).symm)
  exact ⟨last, hrun, (hlast 0 (by decide) (by decide)).trans (by decide),
    (hlast 1 (by decide) (by decide)).trans (by decide)⟩

end TensorToolchain.Microkernel
