import Mathlib
import TensorToolchain.Tensor.Winograd

/-!
# Fast convolution computes the convolution

Over the rational numbers the three matrices compute the sums of products that define a convolution.
A column of the interpolation matrix holds the coefficients of the basis polynomial of a point, so
that the powers of the points, weighted by the basis polynomials, give back a power of the variable
below the number of points. The point at infinity makes up for the one greater power that occurs.
-/

namespace TensorToolchain.Winograd

open List Polynomial
open Finset (sum_congr sum_comm)

variable {j row n : ℕ} {scale : List ℚ} {rows : List (List ℚ)}

def rationals : Numbers ℚ where
  zero := 0
  one := 1
  add := (· + ·)
  sub := (· - ·)
  mul := (· * ·)
  div := (· / ·)
  negative := fun a => decide (a < 0)

lemma rationals_neg (a : ℚ) : rationals.neg a = -a := zero_sub a

lemma rationals_pow (a : ℚ) (j : ℕ) : rationals.pow a j = a ^ j := by
  induction j with
  | zero => exact (pow_zero a).symm
  | succ j ih => rw [Numbers.pow, ih, pow_succ]; rfl

lemma rationals_product (xs : List ℚ) : rationals.product xs = xs.prod := prod_eq_foldl.symm

lemma rationals_sum (xs : List ℚ) : rationals.sum xs = xs.sum := sum_eq_foldl.symm

lemma getD_timesRoot (p : List ℚ) (a : ℚ) (j : ℕ) :
    (rationals.timesRoot p a).getD j 0 = (0 :: p).getD j 0 - a * p.getD j 0 := by
  have hsc : (p.map (rationals.mul a) ++ [rationals.zero]).getD j 0 = a * p.getD j 0 := by
    rcases lt_trichotomy j p.length with h | h | h
    · rw [getD_append _ _ _ _ (by simpa using h), getD_eq_getElem _ _ (by simpa using h),
        getElem_map, getD_eq_getElem _ _ h]
      rfl
    · simp [h, rationals]
    · rw [getD_eq_default _ _ (by simpa using h), getD_eq_default _ _ h.le, mul_zero]
  rw [← hsc]
  rcases lt_or_ge j (p.length + 1) with h | h
  · rw [Numbers.timesRoot, getD_eq_getElem _ _ (by simpa using h), getElem_zipWith,
      getD_eq_getElem _ _ (by simpa using h), getD_eq_getElem _ _ (by simpa using h)]
    rfl
  · rw [Numbers.timesRoot, getD_eq_default _ _ (by simpa using h),
      getD_eq_default _ _ (by simpa using h), getD_eq_default _ _ (by simpa using h), sub_zero]

/-- The list of coefficients is that of the product of the linear factors. -/
lemma getD_fromRoots (points : List ℚ) (j : ℕ) :
    (rationals.fromRoots points).getD j 0 = ((points.map (X - C ·)).prod).coeff j := by
  suffices hfl : ∀ (p : List ℚ) (q : ℚ[X]), (∀ j, p.getD j 0 = q.coeff j) → ∀ j,
      (points.foldl rationals.timesRoot p).getD j 0 = (q * (points.map (X - C ·)).prod).coeff j by
    rw [Numbers.fromRoots, hfl [rationals.one] 1 (fun j => ?_) j, one_mul]
    cases j with
    | zero => simp [rationals]
    | succ j => simp [coeff_one]
  induction points with
  | nil => simp
  | cons a points ih =>
    intro p q hpq j
    rw [foldl_cons, ih _ _ fun j => ?_, map_cons, prod_cons, mul_assoc]
    rw [getD_timesRoot, hpq]
    cases j with
    | zero => simp [mul_coeff_zero, mul_comm]
    | succ j => rw [getD_cons_succ, hpq, coeff_mul_X_sub_C, mul_comm a]

/-! ### Basis polynomials -/

variable {points : List ℚ} {i : ℕ}

lemma prod_map_others {M : Type} [CommMonoid M] (f : ℚ → M) (hi : i < points.length) :
    ((others points i).map f).prod = ∏ j ∈ (Finset.range points.length).erase i, f (points.getD j 0) := by
  have hpn : points = (range points.length).map fun j => points.getD j 0 := by
    refine ext_getElem (by simp) fun j hj _ => ?_
    simp [getElem?_eq_getElem hj]
  have her : (range points.length).eraseIdx i = (range points.length).erase i := by
    rw [← nodup_range.erase_getElem i (by simpa using hi), getElem_range]
  have hset : (Finset.range points.length).erase i = ((range points.length).erase i).toFinset := by
    ext j
    simp [nodup_range.mem_erase_iff]
  rw [hset, prod_toFinset _ (nodup_range.erase i), others]
  conv_lhs => rw [hpn]
  rw [eraseIdx_map, her, map_map]
  rfl

lemma difference_eq (hi : i < points.length) : difference rationals points i =
    ∏ j ∈ (Finset.range points.length).erase i, (points.getD i 0 - points.getD j 0) := by
  rw [difference, rationals_product, ← prod_map_others (points.getD i 0 - ·) hi]
  rfl

lemma injOn_getD (hds : points.Nodup) : Set.InjOn (points.getD · 0) (Finset.range points.length) := by
  intro j hj l hl h
  have hj : j < points.length := by simpa using hj
  have hl : l < points.length := by simpa using hl
  simp only [getD_eq_getElem _ _ hj, getD_eq_getElem _ _ hl] at h
  exact (hds.getElem_inj_iff).1 h

lemma difference_ne_zero (hds : points.Nodup) (hi : i < points.length) : difference rationals points i ≠ 0 := by
  rw [difference_eq hi, Finset.prod_ne_zero_iff]
  intro j hj
  obtain ⟨hji, hj⟩ := Finset.mem_erase.1 hj
  refine sub_ne_zero.2 fun h => hji ?_
  exact injOn_getD hds (by simpa using hj) (by simpa using hi) h.symm

/-- The coefficients of the basis polynomial that is one at a point and zero at all others. -/
lemma basis_eq_coeff (hi : i < points.length) (power : ℕ) : basis rationals points i power =
    (Lagrange.basis (Finset.range points.length) (points.getD · 0) i).coeff power := by
  have hbs : Lagrange.basis (.range points.length) (points.getD · 0) i =
      C (difference rationals points i)⁻¹ * ((others points i).map (X - C ·)).prod := by
    rw [difference_eq hi, prod_map_others _ hi, ← Finset.prod_inv_distrib, map_prod, ← Finset.prod_mul_distrib]
    rfl
  rw [hbs, coeff_C_mul, ← getD_fromRoots, mul_comm]
  exact div_eq_mul_inv _ _

/-- The powers of the points, weighted by the basis polynomials, give back a power. -/
lemma sum_pow_mul_basis (hds : points.Nodup) {e : ℕ} (he : e < points.length) (row : ℕ) :
    ∑ j ∈ Finset.range points.length, points.getD j 0 ^ e * basis rationals points j row =
      if row = e then 1 else 0 := by
  have hpw : (X ^ e : ℚ[X]) = Lagrange.interpolate (.range points.length) (points.getD · 0) fun j => (X ^ e).eval _ :=
    Lagrange.eq_interpolate (injOn_getD hds) (by simpa using he)
  have hcf := congrArg (·.coeff row) hpw
  simp only [coeff_X_pow, Lagrange.interpolate_apply, finsetSum_coeff, coeff_C_mul, eval_pow, eval_X] at hcf
  rw [hcf]
  refine sum_congr rfl fun j hj => ?_
  rw [basis_eq_coeff (mem_range.1 hj)]

/-! ### Entries of the matrices -/

def entry (rows : List (List ℚ)) (i j : ℕ) : ℚ := (rows.getD i []).getD j 0

def Rectangular (rows : List (List ℚ)) (m n : ℕ) : Prop := rows.length = m ∧ ∀ row ∈ rows, row.length = n

lemma rectangular_evaluation (points : List ℚ) (columns : ℕ) :
    Rectangular (evaluation rationals points columns) (points.length + 1) columns := by
  refine ⟨by simp [evaluation], fun row hrow => ?_⟩
  rcases mem_append.1 hrow with hrow | hrow
  · obtain ⟨a, -, rfl⟩ := mem_map.1 hrow
    simp
  · rw [mem_singleton.1 hrow]
    simp

lemma rectangular_interpolation (points : List ℚ) :
    Rectangular (interpolation rationals points) (points.length + 1) (points.length + 1) := by
  refine ⟨by simp [interpolation], fun row hrow => ?_⟩
  rcases mem_append.1 hrow with hrow | hrow
  · obtain ⟨a, -, rfl⟩ := mem_map.1 hrow
    simp
  · rw [mem_singleton.1 hrow]
    simp

lemma entry_concat_of_lt (last : List ℚ) (i : ℕ) (hj : j < rows.length) :
    entry (rows ++ [last]) j i = entry rows j i := by
  rw [entry, getD_append _ _ _ _ hj, entry]

lemma entry_evaluation {columns : ℕ} (hj : j < points.length) (hi : i < columns) :
    entry (evaluation rationals points columns) j i = points.getD j 0 ^ i := by
  rw [evaluation, entry_concat_of_lt _ _ (by simpa using hj)]
  simp [entry, hj, hi, rationals_pow]

lemma entry_evaluation_last {columns : ℕ} (hi : i < columns) :
    entry (evaluation rationals points columns) points.length i = if i + 1 = columns then 1 else 0 := by
  simp [entry, evaluation, hi, rationals]

lemma entry_interpolation (hrow : row < points.length) (hj : j < points.length) :
    entry (interpolation rationals points) row j = basis rationals points j row := by
  rw [interpolation]
  simp [entry, hrow, hj, getElem?_append_left]

lemma entry_interpolation_infinity (hrow : row < points.length) :
    entry (interpolation rationals points) row points.length = -∑ j ∈ Finset.range points.length,
        points.getD j 0 ^ points.length * basis rationals points j row := by
  have hsum : ∑ j ∈ Finset.range points.length, -(points.getD j 0 ^ points.length * basis rationals points j row) =
      ((range points.length).map fun j => rationals.mul (basis rationals points j row)
        (rationals.neg (rationals.pow (points.getD j default) points.length))).sum := by
    refine sum_congr rfl fun j _ => ?_
    rw [rationals_neg, rationals_pow, mul_comm, ← mul_neg]
    rfl
  rw [interpolation, entry_concat_of_lt _ _ (by simpa using hrow), ← Finset.sum_neg_distrib, hsum, ← rationals_sum]
  simp [entry, hrow]

lemma entry_interpolation_last (hj : j < points.length + 1) : entry (interpolation rationals points) points.length j =
      if j = points.length then 1 else 0 := by
  simp [entry, interpolation, hj, rationals]

lemma scale_ne_zero (hds : points.Nodup) (hj : j < points.length + 1) : (scales rationals points).getD j 0 ≠ 0 := by
  rcases Nat.lt_succ_iff_lt_or_eq.1 hj with hj | rfl
  · have hne := difference_ne_zero hds hj
    rw [scales, getD_append _ _ _ _ (by simpa using hj),
      getD_eq_getElem _ _ (by simpa using hj), getElem_map, getElem_range]
    -- the first scale may have changed its sign
    dsimp only
    split_ifs
    · rw [rationals_neg]
      exact neg_ne_zero.2 hne
    · exact hne
  · simp [scales, rationals]

lemma length_scales (points : List ℚ) : (scales rationals points).length = points.length + 1 := by simp [scales]

lemma entry_scaled_columns {m : ℕ} (hrw : Rectangular rows m n) (hsc : scale.length = n)
    (hrow : row < m) (hj : j < n) : entry (rows.map (List.zipWith rationals.mul · scale)) row j =
      entry rows row j * scale.getD j 0 := by
  have hrow : row < rows.length := hrw.1.symm ▸ hrow
  have hlen : rows[row].length = n := hrw.2 _ (getElem_mem hrow)
  have hfn : (rows.map (.zipWith rationals.mul · scale)).getD row [] = .zipWith rationals.mul rows[row] scale := by
    rw [getD_eq_getElem _ _ (by simpa using hrow), getElem_map]
  rw [entry, hfn, entry, getD_eq_getElem rows _ hrow, getD_eq_getElem _ _ (by simp; omega), getElem_zipWith,
    getD_eq_getElem _ _ (by omega), getD_eq_getElem _ _ (by omega)]
  rfl

lemma entry_scaled_rows {m k : ℕ} (hrw : Rectangular rows m n) (hsc : scale.length = m) (hj : j < m) (hk : k < n) :
    entry (List.zipWith (fun r s => r.map (rationals.mul · (rationals.div rationals.one s)))
      rows scale) j k = entry rows j k / scale.getD j 0 := by
  have hrow : j < rows.length := hrw.1.symm ▸ hj
  have hlen : rows[j].length = n := hrw.2 _ (getElem_mem hrow)
  have hfn : (zipWith (fun r s => r.map fun v =>
      rationals.mul v (rationals.div rationals.one s)) rows scale).getD j [] =
      rows[j].map fun v => rationals.mul v (rationals.div rationals.one (scale.getD j 0)) := by
    rw [getD_eq_getElem _ _ (by simp; omega), getElem_zipWith, getD_eq_getElem scale _ (by omega)]
  rw [entry, hfn, entry, getD_eq_getElem rows _ hrow, getD_eq_getElem _ _ (by simp; omega), getElem_map,
    getD_eq_getElem rows[j] _ (by omega)]
  exact mul_one_div _ _

/-! ### Outputs -/

open Matrix in
/-- The outputs that the matrices compute from weights and data. -/
def Matrices.outputs (w : Matrices ℚ) {m n r : ℕ} (g : Fin r → ℚ) (d : Fin m → ℚ) : Fin n → ℚ :=
  let a : Matrix (Fin m) (Fin n) ℚ := .of fun j i => entry w.a j i
  let b : Matrix (Fin m) (Fin m) ℚ := .of fun row j => entry w.b row j
  let c : Matrix (Fin m) (Fin r) ℚ := .of fun j k => entry w.g j k
  aᵀ *ᵥ ((c *ᵥ g) * (bᵀ *ᵥ d))

/-- Without scales, the matrices pick from the data the item that belongs to an output and a
weight. -/
lemma sum_unscaled (hds : points.Nodup) {r k : ℕ} (hn : 2 ≤ n) (hr : 2 ≤ r)
    (hpn : points.length = n + r - 2) (hi : i < n) (hk : k < r) (hrow : row < points.length + 1) :
    ∑ j ∈ Finset.range (points.length + 1), entry (evaluation rationals points n) j i *
      entry (evaluation rationals points r) j k * entry (interpolation rationals points) row j =
      if row = i + k then 1 else 0 := by
  have hfn : ∀ j ∈ range points.length, entry (evaluation rationals points n) j i *
      entry (evaluation rationals points r) j k * entry (interpolation rationals points) row j =
      points.getD j 0 ^ (i + k) * entry (interpolation rationals points) row j := by
    intro j hj
    have hj := mem_range.1 hj
    rw [entry_evaluation hj hi, entry_evaluation hj hk, pow_add]
  rw [Finset.sum_range_succ, sum_congr rfl hfn, entry_evaluation_last hi, entry_evaluation_last hk]
  rcases Nat.lt_succ_iff_lt_or_eq.1 hrow with hrow | rfl
  · have hbs : ∑ j ∈ .range points.length,
        points.getD j 0 ^ (i + k) * entry (interpolation rationals points) row j = ∑ j ∈ Finset.range points.length,
          points.getD j 0 ^ (i + k) * basis rationals points j row := by
      refine sum_congr rfl fun j hj => ?_
      rw [entry_interpolation hrow (mem_range.1 hj)]
    rw [hbs, entry_interpolation_infinity hrow]
    rcases lt_or_ge (i + k) points.length with hlt | hge
    · have hnot : ¬ (i + 1 = n ∧ k + 1 = r) := by omega
      rw [sum_pow_mul_basis hds hlt, ite_zero_mul_ite_zero, if_neg hnot]
      simp
    · -- the greatest power is taken away again
      have hlst : i + 1 = n ∧ k + 1 = r := by omega
      have heq : i + k = points.length := by omega
      rw [if_pos hlst.1, if_pos hlst.2, heq, if_neg (by omega)]
      ring
  · have hz : ∑ j ∈ .range points.length, points.getD j 0 ^ (i + k) *
        entry (interpolation rationals points) points.length j = 0 := by
      refine Finset.sum_eq_zero fun j hj => ?_
      have hj := mem_range.1 hj
      rw [entry_interpolation_last (by omega), if_neg (by omega), mul_zero]
    rw [hz, entry_interpolation_last (by omega), if_pos rfl, zero_add, mul_one]
    rcases lt_or_ge (i + k) points.length with hlt | hge
    · have hnot : ¬ (i + 1 = n ∧ k + 1 = r) := by omega
      rw [ite_zero_mul_ite_zero, if_neg hnot, if_neg (by omega)]
    · rw [if_pos (by omega), if_pos (by omega), if_pos (by omega), mul_one]

/-- The sizes of the three matrices fit together. -/
structure Matrices.Sized (w : Matrices ℚ) (n r : ℕ) : Prop where
  a : Rectangular w.a (n + r - 1) n
  b : Rectangular w.b (n + r - 1) (n + r - 1)
  g : Rectangular w.g (n + r - 1) r

lemma sized_matrices {r : ℕ} (hn : 2 ≤ n) (hr : 2 ≤ r) (hlen : n + r - 2 ≤ points.length) :
    (matrices rationals points n r).Sized n r := by
  have htk : (points.take (n + r - 2)).length + 1 = n + r - 1 := by
    rw [length_take]
    omega
  have hsc := length_scales (points.take (n + r - 2))
  have hwg := rectangular_evaluation (points.take (n + r - 2)) r
  have hdt := rectangular_interpolation (points.take (n + r - 2))
  rw [htk] at hsc hwg hdt
  refine ⟨htk ▸ rectangular_evaluation _ n, ⟨?_, ?_⟩, ?_, ?_⟩
  · simpa [matrices] using hdt.1
  · intro row hrow
    obtain ⟨row, hmem, rfl⟩ := mem_map.1 hrow
    rw [length_zipWith, hdt.2 row hmem, hsc, min_self]
  · rw [matrices, length_zipWith, hwg.1, hsc, min_self]
  · intro row hrow
    obtain ⟨j, hj, rfl⟩ := mem_iff_getElem.1 hrow
    simp only [matrices, getElem_zipWith, length_map]
    exact hwg.2 _ (getElem_mem _)

/-- Fast convolution with distinct points computes the convolution, whatever the weights and the
data are. -/
theorem outputs_eq_convolution {n r : ℕ} (hn : 2 ≤ n) (hr : 2 ≤ r)
    (hlength : n + r - 2 ≤ points.length) (hdistinct : points.Nodup) :
    (matrices rationals points n r).Sized n r ∧
      ∀ (g : Fin r → ℚ) (d : Fin (n + r - 1) → ℚ) (i : Fin n),
        (matrices rationals points n r).outputs g d i =
          ∑ k : Fin r, g k * d ⟨i + k, by omega⟩ := by
  refine ⟨sized_matrices hn hr hlength, fun g d i => ?_⟩
  set taken := points.take (n + r - 2) with htaken
  have hsize : taken.length = n + r - 2 := by rw [List.length_take, min_eq_left hlength]
  have hrange : taken.length + 1 = n + r - 1 := by omega
  have hdistinct : taken.Nodup := hdistinct.sublist (List.take_sublist _ _)
  -- the scales cancel in each product
  have hproduct : ∀ (j row : Fin (n + r - 1)) (k : Fin r),
      entry (matrices rationals points n r).g j k * g k *
        (entry (matrices rationals points n r).b row j * d row) =
      g k * (d row * (entry (evaluation rationals taken r) j k *
        entry (interpolation rationals taken) row j)) := by
    intro j row k
    have hj : (j : ℕ) < taken.length + 1 := by omega
    have hrow : (row : ℕ) < taken.length + 1 := by omega
    have hscale := scale_ne_zero hdistinct hj
    have hg := entry_scaled_rows (rectangular_evaluation taken r) (length_scales taken) hj k.2
    have hb := entry_scaled_columns (rectangular_interpolation taken) (length_scales taken) hrow hj
    rw [matrices, hg, hb]
    field_simp
  have hpick : ∀ (k : Fin r) (row : Fin (n + r - 1)),
      ∑ j : Fin (n + r - 1), entry (evaluation rationals taken n) j i *
        (entry (evaluation rationals taken r) j k * entry (interpolation rationals taken) row j) =
      if row = ⟨i + k, by omega⟩ then 1 else 0 := by
    intro k row
    have hrow : (row : ℕ) < taken.length + 1 := by omega
    have hsum := sum_unscaled hdistinct hn hr hsize i.2 k.2 hrow
    rw [hrange, Finset.sum_range] at hsum
    simpa only [mul_assoc, Fin.ext_iff] using hsum
  calc (matrices rationals points n r).outputs g d i
      = ∑ j : Fin (n + r - 1), entry (evaluation rationals taken n) j i *
          ∑ k : Fin r, ∑ row : Fin (n + r - 1), g k * (d row *
            (entry (evaluation rationals taken r) j k *
              entry (interpolation rationals taken) row j)) := by
        simp only [Matrices.outputs, Matrix.mulVec, dotProduct, Matrix.transpose_apply,
          Matrix.of_apply, Pi.mul_apply, Finset.sum_mul_sum, hproduct]
        rfl
    _ = ∑ k : Fin r, g k * ∑ row : Fin (n + r - 1), d row *
          ∑ j : Fin (n + r - 1), entry (evaluation rationals taken n) j i *
            (entry (evaluation rationals taken r) j k *
              entry (interpolation rationals taken) row j) := by
        simp only [Finset.mul_sum]
        rw [sum_comm]
        refine sum_congr rfl fun k _ => ?_
        rw [sum_comm]
        refine sum_congr rfl fun row _ => sum_congr rfl fun j _ => ?_
        ring
    _ = ∑ k : Fin r, g k * d ⟨i + k, by omega⟩ := by
        simp only [hpick, mul_ite, mul_one, mul_zero, Finset.sum_ite_eq', Finset.mem_univ, if_true]

/-- Two outputs with three weights, from four points. -/
theorem outputs_of_four_points : [(0 : ℚ), -1, 1, 2].Nodup ∧
    (matrices rationals [0, -1, 1, 2] 2 3).outputs ![1, 2, 3] ![4, 5, 6, 7] (0 : Fin 2) = 32 ∧
    (matrices rationals [0, -1, 1, 2] 2 3).outputs ![1, 2, 3] ![4, 5, 6, 7] (1 : Fin 2) = 38 := by
  have hdistinct : [(0 : ℚ), -1, 1, 2].Nodup := by decide
  have houtputs := (outputs_eq_convolution (n := 2) (r := 3) (by decide) (by decide) (by decide)
    hdistinct).2 ![1, 2, 3] ![4, 5, 6, 7]
  refine ⟨hdistinct, (houtputs 0).trans ?_, (houtputs 1).trans ?_⟩
  · simp [Fin.sum_univ_three]
    norm_num
  · simp [Fin.sum_univ_three]
    norm_num

end TensorToolchain.Winograd
