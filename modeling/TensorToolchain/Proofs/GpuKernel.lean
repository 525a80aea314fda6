import TensorToolchain.GpuKernel.Kernels
import TensorToolchain.Proofs.Faults
import TensorToolchain.Proofs.Text.Reading

/-!
# Names of kernels for matrix products

The name of a kernel gives its unit, the element types of its first operand and of its sums, the
layouts of the operands, its alignment and the cuts of the product; it gives the element type of the
result only if the first operand does not have that of the sums. The architecture is not named.
-/

namespace TensorToolchain.GpuKernel

open List Text

variable {p q : ProductKernel} {core : String} {r s : List Char}

lemma Element.underscore_notMem_name (e : Element) : '_' ∉ e.name.toList := by cases e <;> simp [name]

lemma Element.name_injective {e f : Element} (h : e.name.toList = f.name.toList) : e = f := by
  cases e <;> cases f <;> simp_all [name]

lemma Element.letter_injective {e f : Element} {letter : String} (he : e.letter = .ok letter)
    (hf : f.letter = .ok letter) : e = f := by
  have h : ∀ e f : Element, e.letter = f.letter → e.letter ≠ fail .missingKey → e = f := by
    rintro (_ | _ | _ | _ | _) (_ | _ | _ | _ | _) <;> decide
  exact h e f (he.trans hf.symm) (by simp [he, fail])

/-- The layouts of two operands can be read off their names one after the other. -/
lemma Layout.short_append_inj {a b c d : Layout}
    (h : a.short.toList ++ b.short.toList = c.short.toList ++ d.short.toList) : a = c ∧ b = d := by
  cases a <;> cases b <;> cases c <;> cases d <;> simp_all [short]

lemma OpcodeClass.name_append_inj {o o' : OpcodeClass}
    (h : o.name.toList ++ '_' :: r = o'.name.toList ++ '_' :: s) : o = o' ∧ r = s := by
  cases o <;> cases o' <;> simp_all [name]

lemma underscore_notMem_repr (n : Int) : '_' ∉ n.repr.toList :=
  fun h => absurd (isNumeral_of_mem_toString h) (by decide)

namespace ProductKernel

/-! ### The parts of a name -/

def blockPart (p : ProductKernel) : List Char :=
  (toString p.tile.block.m).toList ++ 'x' :: (toString p.tile.block.n).toList

def stagePart (p : ProductKernel) : List Char :=
  (toString p.tile.block.k).toList ++ 'x' :: (toString p.tile.stages).toList

def lastParts (p : ProductKernel) : List Char :=
  p.blockPart ++ '_' :: (p.stagePart ++ '_' :: (p.a.layout.short.toList ++ p.b.layout.short.toList ++
    '_' :: ("align".toList ++ (toString p.a.alignment).toList)))

lemma lastParts_inj (h : p.lastParts = q.lastParts) :
    p.tile.block = q.tile.block ∧ p.tile.stages = q.tile.stages ∧ p.a.layout = q.a.layout ∧
      p.b.layout = q.b.layout ∧ p.a.alignment = q.a.alignment := by
  simp only [lastParts, blockPart, stagePart, append_assoc, cons_append] at h
  obtain ⟨hm, h⟩ := toString_append_inj rfl rfl h
  obtain ⟨hn, h⟩ := toString_append_inj rfl rfl (cons.inj h).2
  obtain ⟨hk, h⟩ := toString_append_inj rfl rfl (cons.inj h).2
  obtain ⟨hst, h⟩ := toString_append_inj rfl rfl (cons.inj h).2
  have hsh : ∀ l : Layout, '_' ∉ l.short.toList := by rintro (_ | _ | _) <;> simp [Layout.short]
  rw [← append_assoc, ← append_assoc] at h
  obtain ⟨hly, h⟩ := append_underscore_inj (by simp [hsh]) (by simp [hsh]) (cons.inj h).2
  obtain ⟨ha, hb⟩ := Layout.short_append_inj hly
  have hal := Int.repr_injective (String.toList_injective (append_cancel_left h))
  cases hp : p.tile.block
  simp_all

/-- The name of a core starts with the letter of its sums. -/
lemma of_coreName_eq_ok (h : p.coreName = .ok core) : '_' ∉ core.toList ∧
    'g' ∈ core.toList ∧ ∃ letter, p.tile.math.accumulator.letter = .ok letter ∧
      ∃ rest, core.toList = letter.toList ++ rest ∧ letter.toList.length = 1 := by
  obtain ⟨letter, hlt, h⟩ := bind_eq_ok.1 h
  have hun : '_' ∉ letter.toList ∧ letter.toList.length = 1 := by
    cases hacc : p.tile.math.accumulator <;> rw [hacc] at hlt <;> cases hlt <;> decide
  have hnm : '_' ∉ (intermediateName p.tile.math p.a.element).toList := by
    unfold intermediateName
    split_ifs
    · exact Element.underscore_notMem_name _
    · simp
  split_ifs at h <;> obtain rfl := Except.ok.inj h
  · refine ⟨by simp [hun.1], by simp, letter, hlt, "gemm".toList, by simp, hun.2⟩
  · refine ⟨by simp [hun.1, Block.digits, hnm, underscore_notMem_repr], by simp, letter, hlt,
      _, by rw [String.toList_append, String.toList_append, String.toList_append, append_assoc, append_assoc], hun.2⟩

lemma accumulator_of_coreName_eq (hp : p.coreName = .ok core) (hq : q.coreName = .ok core) :
    p.tile.math.accumulator = q.tile.math.accumulator := by
  obtain ⟨-, -, letter, hlt, rest, hcr, hlen⟩ := of_coreName_eq_ok hp
  obtain ⟨-, -, letter', hlt', rest', hcr', hlen'⟩ := of_coreName_eq_ok hq
  obtain ⟨hsm, -⟩ := append_inj (hcr.symm.trans hcr') (hlen.trans hlen'.symm)
  exact Element.letter_injective hlt (String.toList_injective hsm ▸ hlt')

/-- The element types that are written around the name of a core. -/
lemma extendName_cases (core : String) (a c accumulator : Element) (r : List Char) :
    let text := (extendName core a c accumulator).toList ++ '_' :: r
    a = accumulator ∧ text = core.toList ++ '_' :: r ∨
    a ≠ accumulator ∧ c = accumulator ∧ text = core.toList ++ '_' :: (a.name.toList ++ '_' :: r) ∨
    a ≠ accumulator ∧ c ≠ accumulator ∧
      text = c.name.toList ++ '_' :: (core.toList ++ '_' :: (a.name.toList ++ '_' :: r)) := by
  by_cases ha : a = accumulator <;> by_cases hc : c = accumulator <;> simp [extendName, ha, hc]

/-- It can be told which element types are written around the name of a core: it has a letter that
no such name has, and so has the size of a block. -/
lemma extendName_append_inj {core' : String} (hp : p.coreName = .ok core) (hq : q.coreName = .ok core')
    (h : (extendName core p.a.element p.c.element p.tile.math.accumulator).toList ++ '_' :: p.lastParts =
      (extendName core' q.a.element q.c.element q.tile.math.accumulator).toList ++ '_' :: q.lastParts) :
    p.tile.math.accumulator = q.tile.math.accumulator ∧ p.a.element = q.a.element ∧
      (p.a.element ≠ p.tile.math.accumulator → p.c.element = q.c.element) ∧ p.lastParts = q.lastParts := by
  have hlt : ∀ e : Element, 'g' ∉ e.name.toList ∧ 'x' ∉ e.name.toList := by
    rintro (_ | _ | _ | _ | _) <;> simp [Element.name]
  have hcr : ∀ {p : ProductKernel} {core}, p.coreName = .ok core → ∀ {e : Element} {r s},
      core.toList ++ '_' :: r ≠ e.name.toList ++ '_' :: s := by
    intro p core hp e r s h
    obtain ⟨hcr, hg, -⟩ := of_coreName_eq_ok hp
    exact (hlt e).1 ((append_underscore_inj hcr e.underscore_notMem_name h).1 ▸ hg)
  have hbl : ∀ {p : ProductKernel} {e : Element} {s}, p.lastParts ≠ e.name.toList ++ '_' :: s := by
    intro p e s h
    have hx : '_' ∉ p.blockPart ∧ 'x' ∈ p.blockPart := by simp [blockPart, underscore_notMem_repr]
    exact (hlt e).2 ((append_underscore_inj hx.1 e.underscore_notMem_name h).1 ▸ hx.2)
  have hrd : ∀ {r s}, core.toList ++ '_' :: r = core'.toList ++ '_' :: s →
      p.tile.math.accumulator = q.tile.math.accumulator ∧ r = s := by
    intro r s h
    obtain ⟨hsm, hrs⟩ := append_underscore_inj (of_coreName_eq_ok hp).1 (of_coreName_eq_ok hq).1 h
    exact ⟨accumulator_of_coreName_eq hp (String.toList_injective hsm ▸ hq), hrs⟩
  have hel : ∀ {e f : Element} {r s}, e.name.toList ++ '_' :: r = f.name.toList ++ '_' :: s → e = f ∧ r = s := by
    intro e f r s h
    obtain ⟨hsm, hrs⟩ := append_underscore_inj e.underscore_notMem_name f.underscore_notMem_name h
    exact ⟨Element.name_injective hsm, hrs⟩
  rcases extendName_cases core p.a.element p.c.element p.tile.math.accumulator p.lastParts with
    ⟨ha, hp'⟩ | ⟨ha, hc, hp'⟩ | ⟨ha, hc, hp'⟩ <;>
  rcases extendName_cases core' q.a.element q.c.element q.tile.math.accumulator q.lastParts with
    ⟨ha', hq'⟩ | ⟨ha', hc', hq'⟩ | ⟨ha', hc', hq'⟩ <;>
  rw [hp', hq'] at h
  · obtain ⟨hacc, hr⟩ := hrd h
    exact ⟨hacc, ha.trans (hacc.trans ha'.symm), absurd ha, hr⟩
  · exact absurd (hrd h).2 hbl
  · exact absurd h (hcr hp)
  · exact absurd (hrd h).2.symm hbl
  · obtain ⟨hacc, hr⟩ := hrd h
    obtain ⟨hsm, hr⟩ := hel hr
    exact ⟨hacc, hsm, fun _ => hc.trans (hacc.trans hc'.symm), hr⟩
  · exact absurd h (hcr hp)
  · exact absurd h.symm (hcr hq)
  · exact absurd h.symm (hcr hq)
  · obtain ⟨hrsl, h⟩ := hel h
    obtain ⟨hacc, h⟩ := hrd h
    obtain ⟨hsm, hr⟩ := hel h
    exact ⟨hacc, hsm, fun _ => hrsl, hr⟩

lemma exists_core_of_name_eq_ok {name : String} (h : p.name = .ok name) : ∃ core, p.coreName = .ok core ∧
    name.toList = "cutlass_".toList ++ (p.tile.math.opcode.name.toList ++ '_' ::
      ((extendName core p.a.element p.c.element p.tile.math.accumulator).toList ++ '_' :: p.lastParts)) := by
  obtain ⟨extended, hex, h⟩ := bind_eq_ok.1 h
  obtain ⟨core, hcr, hex⟩ := bind_eq_ok.1 hex
  obtain rfl := Except.ok.inj hex
  obtain rfl := Except.ok.inj h
  exact ⟨core, hcr, by simp [lastParts, blockPart, stagePart, Tile.name]⟩

/-! ### What the name leaves out -/

/-- What the source shows and the name does not give, but for the shape of the instruction, whose
digits it gives for tensor units. -/
def unnamed (p : ProductKernel) : Int × Block × Block × MathOperation × Element × Int × Layout × Int × Element ×
    Functor × Swizzle :=
  (p.arch, p.tile.warps, p.tile.math.shape, p.tile.math.operation, p.b.element, p.b.alignment, p.c.layout,
    p.c.alignment, p.epilogue, p.functor, p.swizzle)

/-- Kernels of one name have the same source if they agree in what the name leaves out. -/
theorem source_eq_of_name_eq (noBetaScaling batched : Bool) (h : p.name = q.name)
    (hunnamed : p.unnamed = q.unnamed)
    (hresult : p.a.element = p.tile.math.accumulator → p.c.element = q.c.element) :
    p.source noBetaScaling batched = q.source noBetaScaling batched := by
  simp only [unnamed, Prod.mk.injEq] at hunnamed
  cases hname : p.name with
  | error e =>
    simp only [source, lines, ← h, hname, Tile.warpBlock, hunnamed.2.1]
    cases hwarps : demand (q.tile.warps.toList.all (· != 0)) .zeroDivision <;> rfl
  | ok name =>
    obtain ⟨core, hcore, htext⟩ := exists_core_of_name_eq_ok hname
    obtain ⟨core', hcore', htext'⟩ := exists_core_of_name_eq_ok (h ▸ hname)
    obtain ⟨hopcode, hrest⟩ := OpcodeClass.name_append_inj (append_cancel_left (htext.symm.trans htext'))
    obtain ⟨hacc, ha, hc, hlast⟩ := extendName_append_inj hcore hcore' hrest
    obtain ⟨hblock, hstages, hlayout, hlayout', halign⟩ := lastParts_inj hlast
    obtain ⟨harch, hwarps, hshape, hoperation, hb, hbalign, hclayout, hcalign, hepilogue, hfunctor, hswizzle⟩ :=
      hunnamed
    have hc : p.c.element = q.c.element := by
      by_cases hsame : p.a.element = p.tile.math.accumulator
      · exact hresult hsame
      · exact hc hsame
    simp only [source, lines, hname, h ▸ hname, Tile.warpBlock, vectorLength, hopcode, hacc, ha, hc, hblock,
      hstages, hlayout, hlayout', halign, harch, hwarps, hshape, hoperation, hb, hbalign, hclayout, hcalign,
      hepilogue, hfunctor, hswizzle]

/-- A product of matrices of halves, summed in single precision. -/
def halfProduct : ProductKernel where
  arch := 75
  tile := ⟨⟨64, 128, 32⟩, 2, ⟨2, 2, 1⟩, ⟨⟨16, 8, 8⟩, .f16, .f16, .f32, .f32, .tensor, .multiplyAdd⟩, 75, 1024⟩
  a := ⟨.f16, .rowMajor, 8⟩
  b := ⟨.f16, .columnMajor, 8⟩
  c := ⟨.f16, .rowMajor, 8⟩
  epilogue := .f32

theorem halfProduct_capability_not_shown :
    let later := { halfProduct with tile := { halfProduct.tile with minCapability := 80 } }
    later.name = halfProduct.name ∧ later.source false true = halfProduct.source false true :=
  ⟨rfl, source_eq_of_name_eq false true rfl rfl fun _ => rfl⟩

/-- Another architecture, and sums taken in another way, give another source under the same name. -/
theorem arch_operation_unnamed :
    let later := { halfProduct with arch := 80 }
    let fast := { halfProduct with
      tile.math.operation := .multiplyAddFast }
    (later.name = halfProduct.name ∧ later.source false true ≠ halfProduct.source false true) ∧
      fast.name = halfProduct.name ∧ fast.source false true ≠ halfProduct.source false true := by
  refine ⟨⟨rfl, ?_⟩, rfl, ?_⟩ <;> decide +kernel

end ProductKernel

end TensorToolchain.GpuKernel
