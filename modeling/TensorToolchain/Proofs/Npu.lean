import Mathlib
import TensorToolchain.Npu.Request
import TensorToolchain.Proofs.Faults

/-!
# Blocks of elementwise operators

An operator whose inputs need exactly its output block gets a block on every model of the
accelerator: halving one axis after the other ends, at the latest with the micro block, whose inputs
fit into the free banks.
-/

namespace TensorToolchain.Npu

/-- The output shape is positive, and the inputs need the output block in its own layout. -/
structure Elementwise.Direct (e : Elementwise) : Prop where
  shape : ∃ n h v w rest, e.outputShape = n :: h :: v :: w :: rest ∧ 0 < h ∧ 0 < v ∧ 0 < w
  first : e.first = id
  second : e.second = none ∨ e.second = some id
  layouts : e.inputLayout = e.outputLayout ∧ e.secondLayout = e.outputLayout

/-- Every axis of the block is a positive multiple of the micro block. -/
def Model.Aligned (m : Model) (block : Shape) : Prop :=
  ∀ axis, 0 < block.get axis ∧ m.microBlock.get axis ∣ block.get axis

/-- A configuration is found, for an aligned block whose two input blocks fit into the free
banks. -/
def Model.Grants (m : Model) (e : Elementwise) (r : Result BlockConfig) : Prop :=
  ∃ config block a b x y, r = .ok config ∧ m.Aligned block ∧
    layoutBlock block.dims e.outputLayout = .ok config.output ∧ m.inputsOf e config.output = .ok (a, b) ∧
    config.input = a.dims ∧ inputBanks (.ok m) a e.ifm.bytes = .ok x ∧ inputBanks (.ok m) b e.ifm.bytes = .ok y ∧
    x + y ≤ m.freeBanks e.activation

/-- What halving makes smaller. -/
def Shape.sum (s : Shape) : ℤ := s.height + s.width + s.depth

/-- The axes that are not left to halve are those of the micro block. -/
def Model.Settled (m : Model) (block : Shape) (axes : List Axis) : Prop :=
  ∀ axis ∉ axes, block.get axis = m.microBlock.get axis

variable {name : String} {m : Model} {e : Elementwise} {block : Shape} {axis other : Axis} {axes : List Axis} {n : ℤ}

lemma get_set_ne (h : other ≠ axis) : (block.set axis n).get other = block.get other := by
  cases axis <;> cases other <;> first | rfl | exact absurd rfl h

lemma sum_set : (block.set axis n).sum = block.sum - block.get axis + n := by
  cases axis <;> simp only [Shape.sum, Shape.set, Shape.get] <;> ring

lemma Model.Aligned.set (h : m.Aligned block) (hn : 0 < n ∧ m.microBlock.get axis ∣ n) :
    m.Aligned (block.set axis n) := by
  intro other
  obtain rfl | ho := eq_or_ne other axis
  · cases other <;> exact hn
  · rw [get_set_ne ho]
    exact h other

lemma Model.Settled.set (h : m.Settled block (axis :: axes)) : m.Settled (block.set axis n) (axis :: axes) :=
  fun other ho => by rw [get_set_ne (List.ne_of_not_mem_cons ho), h other ho]

lemma Model.Settled.eq_micro (h : m.Settled block []) : block = m.microBlock := by
  cases block
  have hget (axis : Axis) := h axis List.not_mem_nil
  exact Shape.mk.injEq .. ▸ ⟨hget .height, hget .width, hget .depth⟩

section

variable (hm : (name, m) ∈ models)
include hm

lemma cases_models : m = model256 ∨ m = model128 ∨ m = model64 ∨ m = model32 := by
  simp only [models, List.mem_cons, Prod.mk.injEq, List.not_mem_nil, or_false] at hm
  exact hm.imp And.right (.imp And.right (.imp And.right And.right))

lemma micro_cases (axis : Axis) : m.microBlock.get axis = 1 ∨ m.microBlock.get axis = 2 ∨
    m.microBlock.get axis = 4 ∨ m.microBlock.get axis = 8 := by
  obtain rfl | rfl | rfl | rfl := cases_models hm <;> cases axis <;> decide

lemma exists_banks (he : e.Direct) (block : Shape) :
    ∃ out a b x y, layoutBlock block.dims e.outputLayout = .ok out ∧ m.inputsOf e out = .ok (a, b) ∧
      inputBanks (.ok m) a e.ifm.bytes = .ok x ∧ inputBanks (.ok m) b e.ifm.bytes = .ok y ∧
      (block = m.microBlock → x + y ≤ m.freeBanks e.activation) := by
  obtain ⟨op, n, act, shape, layout, layout₁, layout₂, ifm, ofm, first, second⟩ := e
  obtain ⟨-, hfst, hsnd, h₁, h₂⟩ := he
  dsimp only at hfst hsnd h₁ h₂
  subst hfst h₁ h₂
  rcases hsnd with rfl | rfl <;> obtain rfl | rfl | rfl | rfl := cases_models hm <;> cases layout₂ <;>
    cases ifm <;> refine ⟨_, _, _, _, _, rfl, rfl, rfl, rfl, ?_⟩ <;> rintro rfl <;> cases act <;>
    exact of_decide_eq_true rfl

lemma exists_roundUp (axis : Axis) {v : ℤ} (hv : 0 < v) : ∃ n, roundUp v (m.microBlock.get axis) = .ok n ∧
    (0 < n ∧ m.microBlock.get axis ∣ n) ∧ n < v + m.microBlock.get axis := by
  rcases micro_cases hm axis with h | h | h | h <;> rw [h] <;> refine ⟨_, rfl, ?_⟩ <;>
    rw [Int.fdiv_eq_ediv_of_nonneg _ (by decide)] <;> omega

/-- Halving an axis keeps the block aligned, and makes it smaller unless the axis is that of the
micro block. -/
lemma exists_half (ha : m.Aligned block) (axis : Axis) :
    ∃ n, (ceilDiv (block.get axis) 2 >>= (roundUp · (m.microBlock.get axis))) = .ok n ∧
      m.Aligned (block.set axis n) ∧ n ≤ block.get axis ∧
      (block.get axis ≠ m.microBlock.get axis → n < block.get axis) := by
  obtain ⟨hpos, hdvd⟩ := ha axis
  have hceil : ceilDiv (block.get axis) 2 = .ok ((block.get axis + 1) / 2) := by
    simp [ceilDiv, Int.fdiv_eq_ediv_of_nonneg, add_sub_assoc]
  obtain ⟨n, hup, hn, hlt⟩ := exists_roundUp hm axis (v := (block.get axis + 1) / 2) (by omega)
  refine ⟨n, by rw [hceil]; exact hup, ha.set hn, ?_⟩
  rcases micro_cases hm axis with h | h | h | h <;> rw [h] at hn hlt hdvd ⊢ <;> omega

lemma shrink_grants (he : e.Direct) {fuel : ℕ} (ha : m.Aligned block) (hset : m.Settled block (axis :: axes))
    (hfuel : block.sum + axes.length < fuel) : m.Grants e (m.shrink e fuel block (axis :: axes)) := by
  induction fuel generalizing block axis axes with
  | zero =>
    have hsum : 0 < block.sum := add_pos (add_pos (ha .height).1 (ha .width).1) (ha .depth).1
    omega
  | succ fuel ih =>
    obtain ⟨out, a, b, x, y, hout, hin, hx, hy, hmin⟩ := exists_banks hm he block
    simp only [Model.shrink, hout, hin, hx, hy, ok_bind]
    split_ifs with hfit heq
    · exact ⟨_, block, a, b, x, y, rfl, ha, hout, hin, rfl, hx, hy, hfit⟩
    · -- the next axis is halved; after the last one the block is the micro block
      have hset' : m.Settled block axes := fun other ho => by
        obtain rfl | h := eq_or_ne other axis
        · exact eq_of_beq heq
        · exact hset other (List.not_mem_cons_of_ne_of_not_mem h ho)
      cases axes with
      | nil => exact absurd (hmin hset'.eq_micro) hfit
      | cons axis axes =>
        obtain ⟨n, hhalf, ha', hle, -⟩ := exists_half hm ha axis
        simp only [← bind_assoc, hhalf, ok_bind]
        rw [List.length_cons] at hfuel
        exact ih ha' hset'.set (by rw [sum_set]; omega)
    · obtain ⟨n, hhalf, ha', -, hlt⟩ := exists_half hm ha axis
      simp only [← bind_assoc, hhalf, ok_bind]
      have hlt := hlt (by simpa using heq)
      exact ih ha' hset.set (by rw [sum_set]; omega)

lemma exists_startBlock {extent : Shape} (hpos : ∀ axis, 0 < extent.get axis) :
    ∃ block, m.startBlock extent = .ok block ∧ m.Aligned block := by
  have hmin axis : 0 < min (extent.get axis) (maxBlock.get axis) := lt_min (hpos axis) (by cases axis <;> decide)
  choose up hup ha _ using fun axis => exists_roundUp hm axis (hmin axis)
  refine ⟨⟨up .height, up .width, up .depth⟩, ?_, by rintro (_ | _ | _) <;> exact ha _⟩
  rw [Model.startBlock, Shape.roundUp]
  erw [hup .height, hup .width, hup .depth]
  rfl

end

lemma exists_extent (he : e.Direct) : ∃ extent, e.outputExtent = .ok extent ∧ ∀ axis, 0 < extent.get axis := by
  obtain ⟨n, h, v, w, rest, hs, hh, hv, hw⟩ := he.shape
  rw [Elementwise.outputExtent, hs]
  cases e.outputLayout with
  | channelsLast => exact ⟨⟨h, v, w⟩, rfl, by rintro (_ | _ | _) <;> assumption⟩
  | bricks => exact ⟨⟨h, w, v * 16⟩, rfl, by rintro (_ | _ | _) <;> simpa [Shape.get]⟩

/-- Every operator whose inputs need its output block gets exactly one block, a positive multiple of
the micro block along every axis, whose inputs fit into the free banks. -/
theorem elementwiseBlock_grants (hm : (name, m) ∈ models) (he : e.Direct) : m.Grants e (m.elementwiseBlock e) := by
  obtain ⟨extent, hext, hpos⟩ := exists_extent he
  obtain ⟨block, hblock, ha⟩ := exists_startBlock hm hpos
  rw [Model.elementwiseBlock, hext, ok_bind, hblock, ok_bind]
  refine shrink_grants hm he ha (fun axis h => by cases axis <;> simp at h) ?_
  simp only [Shape.sum, List.length_cons, List.length_nil]
  omega

/-- An operator on bricks that uses a look-up table. -/
theorem table_elementwiseBlock_grants : ∃ e : Elementwise, e.outputShape = [1, 33, 9, 65, 16] ∧
    e.activation = .table ∧ model32.Grants e (model32.elementwiseBlock e) :=
  ⟨⟨.unaryElementwise, "ABS", .table, [1, 33, 9, 65, 16], .bricks, .bricks, .bricks, .int16, .int8, id, none⟩, rfl,
    rfl, elementwiseBlock_grants (by simp [models] : ("ethos-u55-32", model32) ∈ models)
      ⟨⟨1, 33, 9, 65, [16], rfl, by decide⟩, rfl, .inl rfl, rfl, rfl⟩⟩

end TensorToolchain.Npu
