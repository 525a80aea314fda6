import TensorToolchain.Proofs.Microkernel.Alignment

/-!
# Places of the values of a dot product

The halfwords of the tensor are filled up row by row, those of the kernel as a whole. Both lists
make up words of their memories, each of which holds a value, and no value occurs twice.
-/

namespace TensorToolchain.Microkernel

open List Window Int

variable {height width x : Int} {c : Int × Int} {w : Halfword × Halfword}

/-- Sizes, stride and offsets for which a dot product is made. -/
structure DotProduct.Valid (d : DotProduct) : Prop where
  outputs_pos : 1 ≤ d.outputs
  height_pos : 1 ≤ d.window.kernelHeight
  width_pos : 1 ≤ d.window.kernelWidth
  stride_pos : 1 ≤ d.inStride
  tensorOffset_eq : d.tensorOffset = 0 ∨ d.tensorOffset = 1
  kernelOffset_eq : d.kernelOffset = 0 ∨ d.kernelOffset = 1

/-! ### Values of a window -/

/-- The positions of a window, row by row. -/
def cells (height width : Int) : List (Int × Int) := (below height).flatMap fun y => (below width).map fun x => (y, x)

@[simp] lemma mem_cells : c ∈ cells height width ↔ (0 ≤ c.1 ∧ c.1 < height) ∧ 0 ≤ c.2 ∧ c.2 < width := by
  obtain ⟨y, x⟩ := c
  simp only [cells, mem_flatMap, mem_map, mem_below, Prod.mk.injEq]
  constructor
  · rintro ⟨_, hy, _, hx, rfl, rfl⟩
    exact ⟨hy, hx⟩
  · rintro ⟨hy, hx⟩
    exact ⟨y, hy, x, hx, rfl, rfl⟩

lemma cells_nodup (height width : Int) : (cells height width).Nodup := (below_nodup height).product (below_nodup width)

lemma length_cells (height width : Int) : (cells height width).length = height.toNat * width.toNat := by
  simp [cells, length_flatMap]

lemma below_succ (n : Nat) : below ((n + 1 : Nat) : Int) = below n ++ [(n : Int)] := by simp [below, range_succ]

lemma below_toNat (n : Int) : below (n.toNat : Int) = below n := by rw [below, below, toNat_natCast]

lemma below_eq_cons {n : Int} (h : 1 ≤ n) : ∃ rest, below n = 0 :: rest := by
  obtain ⟨k, hk⟩ : ∃ k, n.toNat = k + 1 := ⟨n.toNat - 1, by omega⟩
  exact ⟨_, by rw [below, hk, range_succ_eq_map]; rfl⟩

lemma getElem?_cells {y : Int} {j : Nat} (h : (cells height width)[j]? = some (y, x)) : (j : Int) = y * width + x := by
  rw [cells, ← below_toNat height] at h
  generalize height.toNat = n at h
  induction n with
  | zero => simp [below] at h
  | succ n ih =>
    -- The last row stands behind the rows before it.
    rw [below_succ, flatMap_append, getElem?_append] at h
    split_ifs at h with hj
    · exact ih h
    · change ¬ j < (cells n width).length at hj
      change ((flatMap _ [(n : Int)])[j - (cells n width).length]?) = _ at h
      rw [length_cells, toNat_natCast] at hj h
      simp only [flatMap_singleton, getElem?_map, Option.map_eq_some_iff] at h
      obtain ⟨x', hx', rfl, rfl⟩ := h
      have hx := getElem?_below_eq_some hx'
      have hwd : 0 ≤ width := by
        have := (List.getElem?_eq_some_iff.mp hx').1
        simp at this
        omega
      have hrow : ((n * width.toNat : Nat) : Int) = n * width := by rw [Nat.cast_mul, toNat_of_nonneg hwd]
      omega

lemma sum_below (n : Int) (f : Int → Int) : ((below n).map f).sum = ∑ i ∈ .range n.toNat, f i := by
  rw [below, map_map]
  rfl

lemma sum_cells (height width : Int) (f : Int → Int → Int) : ((cells height width).map fun c => f c.1 c.2).sum =
      ∑ y ∈ .range height.toNat, ∑ x ∈ .range width.toNat, f y x := by
  rw [← sum_below height fun y => ∑ x ∈ .range width.toNat, f y x, cells, map_flatMap, flatMap_def, sum_flatten]
  simp only [map_map, ← sum_below]
  rfl

/-! ### Halfwords of the tensor and of the kernel -/

/-- A list of halfwords whose words can be loaded under names of their own. -/
structure Loadable (hs : List Halfword) : Prop where
  even : hs.length % 2 = 0
  values_nodup : (hs.filterMap id).Nodup
  words_used : ∀ w ∈ wordsOf hs, w.1 ≠ none ∨ w.2 ≠ none

namespace DotProduct

variable {d : DotProduct}

def tensorPlace (d : DotProduct) (y x : Int) : Int := d.tensorOffset + y * d.window.tensorWidth + x

def kernelPlace (d : DotProduct) (y x : Int) : Int := d.kernelOffset + y * d.window.kernelWidth + x

/-- The columns of the tensor under the kernel at some output. -/
def columns (d : DotProduct) : Int := d.window.columns d.outputs d.inStride

lemma Valid.columns_pos (hd : d.Valid) : 1 ≤ d.columns := by
  have hst : 0 ≤ (d.outputs - 1) * d.inStride := mul_nonneg (by linarith [hd.outputs_pos]) (by linarith [hd.stride_pos])
  have := hd.width_pos
  simp only [columns, Window.columns]
  omega

lemma Valid.column_lt (hd : d.Valid) {i : Int} (hi : i < d.outputs)
    (hx : x < d.window.kernelWidth) : x + i * d.inStride < d.columns := by
  have hst : 0 ≤ (d.outputs - 1 - i) * d.inStride := mul_nonneg (by omega) (by linarith [hd.stride_pos])
  simp only [columns, Window.columns]
  nlinarith

lemma tensorRow_eq (d : DotProduct) (y : Int) : d.window.tensorRow d.tensorOffset d.outputs d.inStride y =
      padded (d.tensorPlace y 0 % 2 == 1) ((below d.columns).map fun x => (y, x))
        ((d.tensorPlace y 0 + d.columns) % 2 == 1) := by
  have hpl : y * d.window.tensorWidth + d.tensorOffset = d.tensorPlace y 0 := by
    rw [tensorPlace]
    ring
  simp only [tensorRow, fillerIfOdd, padded, hpl, map_map]
  rfl

lemma kernel_eq (d : DotProduct) :
    d.kernel = padded (d.kernelOffset == 1) (cells d.window.kernelHeight d.window.kernelWidth)
      ((d.window.kernelHeight * d.window.kernelWidth + d.kernelOffset) % 2 == 1) := by
  simp only [kernel, kernelHalfwords, fillerIfOdd, padded, cells, map_flatMap, map_map]
  rfl

lemma toNat_beq_one (n : Int) : ((n % 2 == 1).toNat : Int) = n % 2 := by
  rcases emod_two_eq_zero_or_one n with h | h <;> simp [h]

lemma tensorRow_even (hd : d.Valid) (y : Int) :
    (d.window.tensorRow d.tensorOffset d.outputs d.inStride y).length % 2 = 0 := by
  have hcl := hd.columns_pos
  have hfr := toNat_beq_one (d.tensorPlace y 0)
  have hbc := toNat_beq_one (d.tensorPlace y 0 + d.columns)
  rw [tensorRow_eq, length_padded, length_map, length_below]
  omega

lemma some_mem_tensor : some c ∈ d.tensor ↔ c ∈ cells d.window.kernelHeight d.columns := by
  simp only [tensor, tensorHalfwords, tensorRow_eq, mem_flatMap, some_mem_padded, cells]

/-- The tensor starts with a halfword that is not used exactly if its offset is one. -/
lemma head?_tensor (hd : d.Valid) :
    ∃ first, d.tensor.head? = some first ∧ (if first.isNone then 1 else 0) = d.tensorOffset := by
  obtain ⟨rows, hrw⟩ := below_eq_cons hd.height_pos
  obtain ⟨columns, hcl⟩ := below_eq_cons hd.columns_pos
  simp only [tensor, tensorHalfwords, tensorRow_eq, hrw, hcl, flatMap_cons]
  rcases hd.tensorOffset_eq with h | h <;> simp [padded, tensorPlace, h]

lemma tensor_loadable (hd : d.Valid) : Loadable d.tensor := by
  have hev : ∀ y ∈ below d.window.kernelHeight,
      (d.window.tensorRow d.tensorOffset d.outputs d.inStride y).length % 2 = 0 :=
    fun y _ => tensorRow_even hd y
  refine ⟨?_, ?_, ?_⟩
  · rw [tensor, tensorHalfwords, length_flatMap]
    exact Nat.mod_eq_zero_of_dvd (dvd_sum fun n hn => by
      obtain ⟨y, hy, rfl⟩ := mem_map.mp hn
      exact Nat.dvd_of_mod_eq_zero (hev y hy))
  · simp only [tensor, tensorHalfwords, tensorRow_eq, filterMap_flatMap, filterMap_padded]
    exact cells_nodup d.window.kernelHeight d.columns
  · intro w hw
    rw [tensor, tensorHalfwords, wordsOf_flatMap hev] at hw
    obtain ⟨y, -, hw⟩ := mem_flatMap.mp hw
    rw [tensorRow_eq] at hw
    refine word_of_padded ?_ hw
    have := hd.columns_pos
    rw [Ne, map_eq_nil_iff, ← length_eq_zero_iff, length_below]
    omega

lemma tensor_placed (hd : d.Valid) (hw : w ∈ wordsOf d.tensor) : ∃ position, Placed d.tensorPlace w position := by
  rw [tensor, tensorHalfwords, wordsOf_flatMap fun y _ => tensorRow_even hd y] at hw
  obtain ⟨y, -, hw⟩ := mem_flatMap.mp hw
  rw [tensorRow_eq] at hw
  obtain ⟨k, hk⟩ := mem_iff_getElem?.mp hw
  refine ⟨d.tensorPlace y 0 / 2 + k, Aligned.placed (aligned_padded ?_) hk⟩
  intro j y' x h
  simp only [getElem?_map, Option.map_eq_some_iff] at h
  obtain ⟨x, hx, rfl, rfl⟩ := h
  have hfr := toNat_beq_one (d.tensorPlace y 0)
  rw [getElem?_below_eq_some hx, show d.tensorPlace y j = d.tensorPlace y 0 + j by simp [tensorPlace]]
  omega

lemma some_mem_kernel : some c ∈ d.kernel ↔ c ∈ cells d.window.kernelHeight d.window.kernelWidth := by
  rw [kernel_eq d, some_mem_padded]

lemma kernel_loadable (hd : d.Valid) : Loadable d.kernel := by
  have hhg := hd.height_pos
  have hwd := hd.width_pos
  have hsz : ((d.window.kernelHeight.toNat * d.window.kernelWidth.toNat : Nat) : Int) =
      d.window.kernelHeight * d.window.kernelWidth := by
    rw [Nat.cast_mul, toNat_of_nonneg (by omega), toNat_of_nonneg (by omega)]
  refine ⟨?_, ?_, ?_⟩
  · have hbc := toNat_beq_one (d.window.kernelHeight * d.window.kernelWidth + d.kernelOffset)
    rw [kernel_eq d, length_padded, length_cells]
    rcases hd.kernelOffset_eq with h | h <;> simp only [h] at hbc ⊢ <;> simp at hbc ⊢ <;> omega
  · rw [kernel_eq d, filterMap_padded]
    exact cells_nodup _ _
  · intro w hw
    rw [kernel_eq d] at hw
    refine word_of_padded ?_ hw
    have := mul_pos (by omega : 0 < d.window.kernelHeight) (by omega : 0 < d.window.kernelWidth)
    rw [Ne, ← length_eq_zero_iff, length_cells]
    omega

lemma kernel_placed (hd : d.Valid) {k : Nat} (hw : (wordsOf d.kernel)[k]? = some w) : Placed d.kernelPlace w k := by
  rw [kernel_eq d] at hw
  have hal : Aligned d.kernelPlace (2 * 0) (padded (d.kernelOffset == 1)
      (cells d.window.kernelHeight d.window.kernelWidth)
      ((d.window.kernelHeight * d.window.kernelWidth + d.kernelOffset) % 2 == 1)) := by
    refine aligned_padded fun j y x h => ?_
    have hof : ((d.kernelOffset == 1).toNat : Int) = d.kernelOffset := by
      rcases hd.kernelOffset_eq with h | h <;> simp [h]
    rw [hof, getElem?_cells h, kernelPlace]
    ring
  simpa using hal.placed hw

/-! ### Names of kernel functions

The name of a function gives its outputs, its sizes and offsets, and its strides if there are
several outputs; those of a single output do not matter. How sums are rescaled is not named, so that
functions of one name have the same code only if they are rescaled alike.
-/

open Text

variable {e : DotProduct}

def offsets (d : DotProduct) : List Int := [d.tensorOffset, d.kernelOffset, d.outputOffset]

lemma offset_append_inj {m n : Int} {r s : List Char} (hm : m = 0 ∨ m = 1) (hn : n = 0 ∨ n = 1)
    (h : (toString m).toList ++ r = (toString n).toList ++ s) : m = n ∧ r = s := by
  have hlen : ∀ k : Int, k = 0 ∨ k = 1 → (toString k).toList.length = 1 := by rintro k (rfl | rfl) <;> decide
  obtain ⟨hmn, hrs⟩ := append_inj h (by rw [hlen m hm, hlen n hn])
  exact ⟨repr_injective (String.toList_injective hmn), hrs⟩

/-- A name gives everything but the strides of a single output and how sums are rescaled. -/
lemma eq_of_name_eq (hd : ∀ o ∈ d.offsets, o = 0 ∨ o = 1) (he : ∀ o ∈ e.offsets, o = 0 ∨ o = 1)
    (h : d.name = e.name) : d.outputs = e.outputs ∧ d.window = e.window ∧ d.offsets = e.offsets ∧
      (1 < d.outputs → d.inStride = e.inStride ∧ d.outStride = e.outStride) := by
  simp only [offsets, forall_mem_cons] at hd he
  have h := congrArg String.toList h
  unfold name at h
  simp only [String.toList_append, append_assoc] at h
  obtain ⟨hot, h⟩ := toString_append_inj rfl rfl (append_cancel_left h)
  obtain ⟨hwd, h⟩ := toString_append_inj rfl rfl (append_cancel_left h)
  obtain ⟨hhg, h⟩ := toString_append_inj rfl rfl (append_cancel_left h)
  obtain ⟨hkr, h⟩ := toString_append_inj rfl rfl (append_cancel_left h)
  obtain ⟨ht, h⟩ := offset_append_inj hd.1 he.1 (append_cancel_left h)
  obtain ⟨hk, h⟩ := offset_append_inj hd.2.1 he.2.1 h
  obtain ⟨ho, h⟩ := offset_append_inj hd.2.2.1 he.2.2.1 h
  refine ⟨hot, ?_, by rw [offsets, offsets, ht, hk, ho], fun hmn => ?_⟩
  · cases hw : d.window
    simp_all
  · rw [if_pos hmn, if_pos (hot ▸ hmn)] at h
    simp only [String.toList_append, append_assoc] at h
    obtain ⟨hin, h⟩ := toString_append_inj rfl rfl (append_cancel_left h)
    exact ⟨hin, repr_injective (String.toList_injective (append_cancel_left h))⟩

lemma code_congr (hnm : d.name = e.name) (hsc : d.sections = e.sections) : d.code = e.code := by
  rw [code, code, hnm, hsc]

/-- The strides of a single output do not matter. -/
lemma code_of_single (hof : d.outputOffset = 0 ∨ d.outputOffset = 1) (h : d.outputs = 1)
    (inStride outStride : Int) : { d with inStride, outStride }.code = d.code := by
  have htn : { d with inStride, outStride }.tensor = d.tensor := by
    unfold tensor tensorHalfwords tensorRow Window.columns
    simp [h]
  have hmc : { d with inStride, outStride }.macs 0 = d.macs 0 := by
    rw [macs, macs, htn, zero_mul, zero_mul]
    rfl
  have hwr : ∀ stride, writeStatements 1 d.outputOffset stride = [.storeHalf d.outputOffset 0] := by
    intro stride
    by_cases hst : 1 < stride
    · simp [writeStatements, hst, below]
    · rcases hof with hd | hd <;> simp [writeStatements, hst, hd, below]
  refine code_congr ?_ ?_
  · unfold name
    simp [h]
  · have hbl : below d.outputs = [0] := by rw [h]; rfl
    rw [sections, sections, htn]
    simp only [hbl, mapM_cons, mapM_nil, hmc]
    simp only [h, hwr]
    rfl

/-- Functions of one name that have an output, shift by as much and have the same zero point have
the same code. -/
theorem code_eq_of_name_eq (hd : ∀ o ∈ d.offsets, o = 0 ∨ o = 1) (he : ∀ o ∈ e.offsets, o = 0 ∨ o = 1)
    (houtputs : 1 ≤ d.outputs) (hname : d.name = e.name) (hshift : d.shift = e.shift)
    (hzero : d.zeroPoint = e.zeroPoint) : d.code = e.code := by
  obtain ⟨hout, hwindow, hoffsets, hstrides⟩ := eq_of_name_eq hd he hname
  simp only [offsets, List.cons.injEq, and_true] at hoffsets
  have heq : e = { d with inStride := e.inStride, outStride := e.outStride } := by simp_all
  rcases houtputs.lt_or_eq with hmany | hone
  · rw [heq, ← (hstrides hmany).1, ← (hstrides hmany).2]
  · rw [heq]
    exact (code_of_single (hd d.outputOffset (by simp [offsets])) hone.symm _ _).symm

def pointProduct : DotProduct where
  outputs := 1
  window := ⟨1, 1, 1⟩
  tensorOffset := 0
  kernelOffset := 0
  outputOffset := 1
  inStride := 1
  outStride := 1

theorem pointProduct_strides_unnamed :
    { pointProduct with inStride := 2, outStride := 3 }.name = pointProduct.name ∧
      { pointProduct with inStride := 2, outStride := 3 }.code = pointProduct.code :=
  ⟨rfl, code_eq_of_name_eq (by decide) (by decide) (by decide) rfl rfl rfl⟩

/-- Another shift and another zero point give other code under the same name. -/
theorem rescaling_unnamed :
    (pointProduct.name = { pointProduct with shift := 34 }.name ∧
      pointProduct.code ≠ { pointProduct with shift := 34 }.code) ∧
    pointProduct.name = { pointProduct with zeroPoint := 0 }.name ∧
      pointProduct.code ≠ { pointProduct with zeroPoint := 0 }.code := by
  refine ⟨⟨rfl, ?_⟩, rfl, ?_⟩ <;> decide +kernel

end DotProduct

end TensorToolchain.Microkernel
