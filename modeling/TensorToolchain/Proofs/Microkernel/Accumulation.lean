import TensorToolchain.Proofs.Microkernel.HalfwordPlaces

/-!
# Sums of a dot product

The loads of a dot product declare every word of the tensor and of the kernel once. Each value
stands in the half of a word in which it stands in memory, so that the instructions for an output
add up the products of the values under the kernel, and fusing them keeps the sum.
-/

namespace TensorToolchain.Microkernel

open List Statement

/-! ### Fused instructions

An instruction on both halves of two words adds what two instructions on one half each add. Fusing
neighbours therefore keeps the total that a list of instructions adds, whatever the words hold, and
reads no other words.
-/

section Fusion

variable {m n p : Mac} {macs : List Mac} {values : String → Option (BitVec 32)}

lemma Opcode.products?_of_fused {o p q : Opcode} (h : o.fused? p = some q) (a b : BitVec 32) :
    ∃ x y, o.products? a b = some x ∧ p.products? a b = some y ∧ q.products? a b = some (x + y) := by
  unfold fused? at h
  split at h <;> cases h
  · exact ⟨_, _, rfl, rfl, rfl⟩
  · exact ⟨_, _, rfl, rfl, congrArg some (add_comm _ _)⟩
  · exact ⟨_, _, rfl, rfl, rfl⟩
  · exact ⟨_, _, rfl, rfl, congrArg some (add_comm _ _)⟩

lemma Mac.operands_of_fused (h : m.fused? n = some p) :
    m.tensor = n.tensor ∧ m.kernel = n.kernel ∧ p.tensor = m.tensor ∧ p.kernel = m.kernel ∧
      m.opcode.fused? n.opcode = some p.opcode := by
  unfold fused? at h
  split_ifs at h with hsm
  simp only [Bool.and_eq_true, beq_iff_eq] at hsm
  obtain ⟨o, ho, rfl⟩ := Option.map_eq_some_iff.mp h
  exact ⟨hsm.1, hsm.2, rfl, rfl, ho⟩

lemma Mac.products?_of_fused {x : Int} (h : m.fused? n = some p) (hm : m.products? values = some x) :
    ∃ y, n.products? values = some y ∧ p.products? values = some (x + y) := by
  obtain ⟨ht, hk, hpt, hpk, ho⟩ := operands_of_fused h
  simp only [products?, Option.bind_eq_bind, Option.bind_eq_some_iff] at hm ⊢
  obtain ⟨a, ha, b, hb, hx⟩ := hm
  obtain ⟨x', y, hx', hy, hxy⟩ := Opcode.products?_of_fused ho a b
  obtain rfl : x' = x := Option.some.inj (hx'.symm.trans hx)
  exact ⟨y, ⟨a, ht ▸ ha, b, hk ▸ hb, hy⟩, a, hpt ▸ ha, b, hpk ▸ hb, hxy⟩

lemma exists_mem_of_mem_fuse (hp : p ∈ fuse macs) : ∃ m ∈ macs, p.tensor = m.tensor ∧ p.kernel = m.kernel := by
  fun_induction fuse macs with
  | case1 m n rest q hq ih =>
    rcases mem_cons.mp hp with rfl | hp
    · obtain ⟨-, -, ht, hk, -⟩ := Mac.operands_of_fused hq
      exact ⟨m, mem_cons_self, ht, hk⟩
    · obtain ⟨m', hm', h⟩ := ih hp
      exact ⟨m', mem_cons_of_mem m (mem_cons_of_mem n hm'), h⟩
  | case2 m n rest hq ih =>
    rcases mem_cons.mp hp with rfl | hp
    · exact ⟨p, mem_cons_self, rfl, rfl⟩
    · obtain ⟨m', hm', h⟩ := ih hp
      exact ⟨m', mem_cons_of_mem m hm', h⟩
  | case3 => exact ⟨p, hp, rfl, rfl⟩

/-- If all instructions of a list can be executed, so can the fused ones, and these add the same
total. -/
lemma totalProducts_fuse (hrd : ∀ m ∈ macs, (m.products? values).isSome) :
    (∀ p ∈ fuse macs, (p.products? values).isSome) ∧ totalProducts values (fuse macs) = totalProducts values macs := by
  fun_induction fuse macs with
  | case1 m n rest p hp ih =>
    obtain ⟨hr, htl⟩ := ih fun m' hm' => hrd m' (mem_cons_of_mem m (mem_cons_of_mem n hm'))
    obtain ⟨x, hx⟩ := Option.isSome_iff_exists.mp (hrd m mem_cons_self)
    obtain ⟨y, hy, hxy⟩ := Mac.products?_of_fused hp hx
    constructor
    · intro q hq
      rcases mem_cons.mp hq with rfl | hq
      · rw [hxy, Option.isSome_some]
      · exact hr q hq
    · simp only [totalProducts_cons, hx, hy, hxy, htl, Option.getD_some]
      ring
  | case2 m n rest hp ih =>
    obtain ⟨hr, htl⟩ := ih fun m' hm' => hrd m' (mem_cons_of_mem m hm')
    constructor
    · intro q hq
      rcases mem_cons.mp hq with rfl | hq
      · exact hrd q mem_cons_self
      · exact hr q hq
    · rw [totalProducts_cons, totalProducts_cons, htl]
  | case3 => exact ⟨hrd, rfl⟩

/-- What instructions make of a sum, one after another. -/
def accumulated (values : String → Option (BitVec 32)) (sum : BitVec 32) (macs : List Mac) : Option (BitVec 32) :=
  macs.foldlM (fun sum mac => (mac.products? values).map (sum + .ofInt 32 ·)) sum

lemma accumulated_eq (sum : BitVec 32) (hrd : ∀ m ∈ macs, (m.products? values).isSome) :
    accumulated values sum macs = some (sum + .ofInt 32 (totalProducts values macs)) := by
  induction macs generalizing sum with
  | nil => simp [accumulated, totalProducts]
  | cons m macs ih =>
    obtain ⟨x, hx⟩ := Option.isSome_iff_exists.mp (hrd m mem_cons_self)
    have hst : accumulated values sum (m :: macs) = accumulated values (sum + .ofInt 32 x) macs := by
      simp [accumulated, hx]
    rw [hst, ih _ fun m' hm' => hrd m' (mem_cons_of_mem m hm'), totalProducts_cons, hx, Option.getD_some,
      BitVec.ofInt_add, BitVec.add_assoc]

/-- Instructions on one half of each word add the same amount to a sum as the fused ones, whatever
the words and the sum hold. -/
theorem accumulated_fuse (values : String → BitVec 32) (hmacs : ∀ m ∈ macs, ∃ a b, m.opcode = .single a b) :
    ∃ amount, ∀ sum, accumulated (some ∘ values) sum macs = some (sum + amount) ∧
      accumulated (some ∘ values) sum (fuse macs) = some (sum + amount) := by
  have hread : ∀ m ∈ macs, (m.products? (some ∘ values)).isSome := by
    intro m hm
    obtain ⟨a, b, hop⟩ := hmacs m hm
    simp [Mac.products?, hop, Opcode.products?]
  obtain ⟨hfused, htotal⟩ := totalProducts_fuse hread
  refine ⟨_, fun sum => ⟨accumulated_eq sum hread, ?_⟩⟩
  rw [accumulated_eq sum hfused, htotal]

/-- Of five instructions the first stays alone, and the others are fused in two ways. -/
theorem five_fused :
    let five : List Mac := [⟨.single .bottom .bottom, "t", "k"⟩, ⟨.single .bottom .top, "t", "k"⟩,
      ⟨.single .top .bottom, "t", "k"⟩, ⟨.single .top .top, "u", "k"⟩, ⟨.single .bottom .bottom, "u", "k"⟩]
    fuse five = [⟨.single .bottom .bottom, "t", "k"⟩, ⟨.crossed, "t", "k"⟩, ⟨.dual, "u", "k"⟩] ∧
      ∃ amount, ∀ sum, accumulated (fun _ => some 0x8000FFFF#32) sum five = some (sum + amount) ∧
        accumulated (fun _ => some 0x8000FFFF#32) sum (fuse five) = some (sum + amount) :=
  ⟨by simp [fuse, Mac.fused?, Opcode.fused?], accumulated_fuse (fun _ => 0x8000FFFF#32) (by simp)⟩

end Fusion

variable {w : Halfword × Halfword}

def Statement.loadedName? : Statement → Option String
  | load _ name _ => some name
  | _ => none

/-- The machine before the first load: each sum is declared and holds the bias. -/
def Machine.biased (m : Machine) (outputs : Int) : Machine :=
  { m with values := fun n => if n ∈ (below outputs).map sumName then some m.bias else none }

namespace DotProduct

variable {d : DotProduct}

/-! ### Loads -/

/-- The position from which a word of the tensor is loaded. -/
def tensorPosition (d : DotProduct) (w : Halfword × Halfword) : Int :=
  match w.2.or w.1 with
  | some (y, x) => (d.tensorPlace y x).fdiv 2
  | none => 0

lemma tensor_word_used (hd : d.Valid) (hw : w ∈ wordsOf d.tensor) : (w.2.or w.1).isSome := by
  rcases (tensor_loadable hd).words_used w hw with h | h <;> simp [Option.isSome_iff_ne_none.mpr h]

lemma placed_tensorPosition (hd : d.Valid) (hw : w ∈ wordsOf d.tensor) :
    Placed d.tensorPlace w (d.tensorPosition w) := by
  obtain ⟨position, hpl⟩ := tensor_placed hd hw
  obtain ⟨⟨y, x⟩, hyx⟩ := Option.isSome_iff_exists.mp (tensor_word_used hd hw)
  simpa only [tensorPosition, hyx, hpl.position_eq hyx] using hpl

def loadsOfTensor (d : DotProduct) : List Statement :=
  (wordsOf d.tensor).map fun w => .load .tensor (Source.tensor.variable w.1 w.2) (d.tensorPosition w)

def loadsOfKernel (d : DotProduct) : List Statement :=
  (wordsOf d.kernel).zipIdx.map fun p => .load .kernel (Source.kernel.variable p.1.1 p.1.2) p.2

lemma kernelNames_eq (d : DotProduct) : ((wordsOf d.kernel).zipIdx.map fun p : (Halfword × Halfword) × Nat =>
        Source.kernel.variable p.1.1 p.1.2) =
      (wordsOf d.kernel).map fun w => Source.kernel.variable w.1 w.2 := by
  conv_rhs => rw [← zipIdx_map_fst 0 (wordsOf d.kernel), map_map]
  rfl

lemma loadedNames_eq (d : DotProduct) : (d.loadsOfTensor ++ d.loadsOfKernel).filterMap loadedName? =
      ((wordsOf d.tensor).map fun w => Source.tensor.variable w.1 w.2) ++
        (wordsOf d.kernel).map fun w => Source.kernel.variable w.1 w.2 := by
  rw [← kernelNames_eq, loadsOfTensor, loadsOfKernel, filterMap_append, filterMap_map,
    filterMap_map, ← filterMap_eq_map, ← filterMap_eq_map]
  rfl

lemma biased_variable (m : Machine) (outputs : Int) (s : Source) (a b : Halfword) :
    (m.biased outputs).values (s.variable a b) = none := by
  simp [Machine.biased, fun i => (variable_ne_sumName s a b i).symm]

section

variable (hd : d.Valid)
include hd

lemma tensorLoads_eq : tensorLoads d.tensor d.window.tensorWidth = .ok d.loadsOfTensor := by
  obtain ⟨first, hfst, hof⟩ := head?_tensor hd
  simp only [tensorLoads, (tensor_loadable hd).even, beq_self_eq_true, require_true, ok_bind, hfst, orFail_some, hof]
  refine mapM_eq_ok fun w hw => ?_
  obtain ⟨⟨y, x⟩, hyx⟩ := Option.isSome_iff_exists.mp (tensor_word_used hd hw)
  simp only [hyx, orFail_some, ok_bind, pure_eq_ok, tensorPosition, tensorPlace]
  congr 3
  ring

lemma kernelLoads_eq : kernelLoads d.kernel = .ok d.loadsOfKernel := by
  simp only [kernelLoads, (kernel_loadable hd).even, beq_self_eq_true, require_true, ok_bind]
  rfl

lemma tensorNames_nodup : ((wordsOf d.tensor).map fun w => Source.tensor.variable w.1 w.2).Nodup :=
  nodup_words .tensor (tensor_loadable hd).values_nodup (tensor_loadable hd).words_used

lemma kernelNames_nodup : ((wordsOf d.kernel).map fun w => Source.kernel.variable w.1 w.2).Nodup :=
  nodup_words .kernel (kernel_loadable hd).values_nodup (kernel_loadable hd).words_used

lemma loadedNames_nodup : ((d.loadsOfTensor ++ d.loadsOfKernel).filterMap loadedName?).Nodup := by
  rw [loadedNames_eq]
  refine (tensorNames_nodup hd).append (kernelNames_nodup hd) fun n ht hk => ?_
  obtain ⟨w, -, rfl⟩ := mem_map.mp ht
  obtain ⟨w', -, hw'⟩ := mem_map.mp hk
  exact tensorVariable_ne_kernelVariable _ _ _ _ hw'.symm

/-- The words of a dot product are declared and hold their memories. -/
structure Loaded (d : DotProduct) (m : Machine) (values : String → Option (BitVec 32)) : Prop where
  tensor : ∀ w ∈ wordsOf d.tensor, values (Source.tensor.variable w.1 w.2) = some (wordAt m.tensor (d.tensorPosition w))
  kernel : ∀ (k : Nat) (w : Halfword × Halfword), (wordsOf d.kernel)[k]? = some w →
    values (Source.kernel.variable w.1 w.2) = some (wordAt m.kernel k)

lemma run_loads_eq (m : Machine) :
    ∃ values, run (d.loadsOfTensor ++ d.loadsOfKernel) (m.biased d.outputs) = some { m with values } ∧
      d.Loaded m values ∧ ∀ i, 0 ≤ i → i < d.outputs → values (sumName i) = some m.bias := by
  obtain ⟨first, hfst, htn, hkp⟩ := run_loads .tensor
    (fun w : Halfword × Halfword => Source.tensor.variable w.1 w.2) d.tensorPosition
    (wordsOf d.tensor) _ (tensorNames_nodup hd)
    fun w _ => biased_variable m d.outputs .tensor w.1 w.2
  have hkernel_free (a b : Halfword) : first (Source.kernel.variable a b) = none := by
    rw [hkp _ fun w _ => (tensorVariable_ne_kernelVariable _ _ _ _).symm, biased_variable]
  obtain ⟨values, hsc, hkr, hkp'⟩ := run_loads .kernel
    (fun p : (Halfword × Halfword) × Nat => Source.kernel.variable p.1.1 p.1.2) (·.2)
    (wordsOf d.kernel).zipIdx { m with values := first }
    (kernelNames_eq d ▸ kernelNames_nodup hd) fun p _ => hkernel_free p.1.1 p.1.2
  refine ⟨values, ?_, ⟨?_, ?_⟩, ?_⟩
  · rw [run_append, loadsOfTensor, hfst]
    exact hsc
  · intro w hw
    rw [hkp' _ fun p _ => tensorVariable_ne_kernelVariable _ _ _ _]
    exact htn w hw
  · intro k w hw
    exact hkr (w, k) (mem_zipIdx_iff_getElem?.mpr hw)
  · intro i h0 hi
    have hbs : first (sumName i) = some m.bias := by
      rw [hkp _ fun w _ => (variable_ne_sumName _ _ _ i).symm]
      have : sumName i ∈ (below d.outputs).map sumName := mem_map_of_mem (mem_below.mpr ⟨h0, hi⟩)
      simp only [Machine.biased, this, if_true]
    rw [hkp' _ fun p _ => (variable_ne_sumName _ _ _ i).symm]
    exact hbs

/-! ### Instructions -/

/-- The sum of the products of the values under the kernel for one output. -/
def windowSum (d : DotProduct) (m : Machine) (i : Int) : Int :=
  ∑ y ∈ Finset.range d.window.kernelHeight.toNat, ∑ x ∈ Finset.range d.window.kernelWidth.toNat,
    (m.tensor (d.tensorOffset + y * d.window.tensorWidth + x + i * d.inStride)).toInt *
      (m.kernel (d.kernelOffset + y * d.window.kernelWidth + x)).toInt

/-- An instruction on a word of the tensor and a word of the kernel. -/
def Reads (d : DotProduct) (mac : Mac) : Prop :=
  (∃ w ∈ wordsOf d.tensor, mac.tensor = Source.tensor.variable w.1 w.2) ∧
    ∃ w ∈ wordsOf d.kernel, mac.kernel = Source.kernel.variable w.1 w.2

/-- The instruction for one value of the kernel multiplies it with the value of the tensor that it
meets. -/
lemma singleMac_spec {y x z : Int} (ht : some (y, z) ∈ d.tensor) (hk : some (y, x) ∈ d.kernel) : ∃ mac : Mac, (do
        let (t, tensorHalf) ← wordOf d.tensor y z let (k, kernelHalf) ← wordOf d.kernel y x
        return ⟨.single tensorHalf kernelHalf, "tensor__" ++ t, "kernel__" ++ k⟩) = Except.ok (ε := Fault) mac ∧
      d.Reads mac ∧ ∀ m values, d.Loaded m values → mac.products? values =
        some ((m.tensor (d.tensorPlace y z)).toInt * (m.kernel (d.kernelPlace y x)).toInt) := by
  obtain ⟨t, htw, th, ht, hty⟩ := wordOf_of_mem (tensor_loadable hd).even ht
  obtain ⟨k, hkw, kh, hk, hky⟩ := wordOf_of_mem (kernel_loadable hd).even hk
  refine ⟨⟨.single th kh, Source.tensor.variable t.1 t.2, Source.kernel.variable k.1 k.2⟩,
    ?_, ⟨⟨t, htw, rfl⟩, k, hkw, rfl⟩, ?_⟩
  · simp [ht, hk, Source.variable, Source.name]
  · intro m values hld
    obtain ⟨j, hj⟩ := mem_iff_getElem?.mp hkw
    simp only [Mac.products?, hld.tensor t htw, hld.kernel j k hj, Option.bind_eq_bind,
      Option.bind_some, Opcode.products?, Half.of_wordAt]
    rw [placed_tensorPosition hd htw th y z hty, kernel_placed hd hj kh y x hky]

/-- The instructions for one output read loaded words and add up the products of its window. -/
lemma singleMacs_spec {i : Int} (h0 : 0 ≤ i) (hi : i < d.outputs) :
    ∃ macs, singleMacs d.window d.tensor d.kernel (i * d.inStride) = .ok macs ∧ (∀ mac ∈ macs, d.Reads mac) ∧
      ∀ m values, d.Loaded m values → (∀ mac ∈ macs, (mac.products? values).isSome) ∧
        totalProducts values macs = d.windowSum m i := by
  have hst : ∀ c ∈ cells d.window.kernelHeight d.window.kernelWidth, _ :=
    fun c hc => singleMac_spec hd (z := c.2 + i * d.inStride) (by
        have hc := mem_cells.mp hc
        have := mul_nonneg h0 (by linarith [hd.stride_pos] : 0 ≤ d.inStride)
        exact some_mem_tensor.mpr (mem_cells.mpr ⟨hc.1, by omega, hd.column_lt hi hc.2.2⟩))
      (some_mem_kernel.mpr hc)
  choose! mac hmac hrd hpr using hst
  refine ⟨(cells d.window.kernelHeight d.window.kernelWidth).map mac, mapM_eq_ok hmac, ?_, ?_⟩
  · intro p hp
    obtain ⟨c, hc, rfl⟩ := mem_map.mp hp
    exact hrd c hc
  · intro m values hld
    constructor
    · intro p hp
      obtain ⟨c, hc, rfl⟩ := mem_map.mp hp
      rw [hpr c hc m values hld, Option.isSome_some]
    · calc totalProducts values _
          = ((cells d.window.kernelHeight d.window.kernelWidth).map fun c =>
              (m.tensor _).toInt * (m.kernel _).toInt).sum := by
            rw [totalProducts, map_map]
            refine congrArg sum (map_congr_left fun c hc => ?_)
            rw [Function.comp_apply, hpr c hc m values hld, Option.getD_some]
        _ = d.windowSum m i := by
            rw [sum_cells _ _ fun y x => (m.tensor (d.tensorPlace y (x + i * d.inStride))).toInt * (m.kernel _).toInt]
            simp only [windowSum, tensorPlace, kernelPlace, add_assoc]

/-- The fused instructions of all outputs read loaded words and add up the products of their
windows. -/
lemma macs_spec : ∃ macs : Int → List Mac, (below d.outputs).mapM d.macs =
        .ok ((below d.outputs).map fun i => (macs i).map (.accumulate (sumName i))) ∧
      (∀ i ∈ below d.outputs, ∀ mac ∈ macs i, d.Reads mac) ∧ ∀ m values, d.Loaded m values → ∀ i ∈ below d.outputs,
        (∀ mac ∈ macs i, (mac.products? values).isSome) ∧ totalProducts values (macs i) = d.windowSum m i := by
  have hsn : ∀ i ∈ below d.outputs, _ := fun i hi => singleMacs_spec hd (mem_below.mp hi).1 (mem_below.mp hi).2
  choose! singles hok hrd hsm using hsn
  refine ⟨fun i => fuse (singles i), mapM_eq_ok fun i hi => ?_, ?_, ?_⟩
  · rw [macs, hok i hi]
    rfl
  · intro i hi mac hmac
    obtain ⟨single, hsng, ht, hk⟩ := exists_mem_of_mem_fuse hmac
    obtain ⟨⟨w, hw, hwt⟩, w', hw', hwk⟩ := hrd i hi single hsng
    exact ⟨⟨w, hw, ht.trans hwt⟩, w', hw', hk.trans hwk⟩
  · intro m values hld i hi
    obtain ⟨hre, htl⟩ := hsm i hi m values hld
    obtain ⟨hrd', htl'⟩ := totalProducts_fuse hre
    exact ⟨hrd', htl'.trans htl⟩

end

/-! ### All outputs -/

lemma run_sums (macs : Int → List Mac) (outputs : List Int) (m : Machine) (bias : BitVec 32) (hnd : outputs.Nodup)
    (hsum : ∀ i ∈ outputs, m.values (sumName i) = some bias)
    (hrd : ∀ i ∈ outputs, ∀ mac ∈ macs i, (mac.products? m.values).isSome)
    (hot : ∀ i ∈ outputs, ∀ mac ∈ macs i, ∀ j, mac.tensor ≠ sumName j ∧ mac.kernel ≠ sumName j) :
    ∃ last, run (outputs.flatMap fun i => (macs i).map (.accumulate (sumName i))) m = some last ∧
      (∀ i ∈ outputs, last.values (sumName i) = some (bias + BitVec.ofInt 32 (totalProducts m.values (macs i)))) ∧
      ∀ n, (∀ i ∈ outputs, n ≠ sumName i) → last.values n = m.values n := by
  refine Exists.imp' (fun values => { m with values }) (fun _ => id) (foldlM_assigns Statement.exec _ sumName _
    outputs m (hnd.map fun _ _ => sumName_injective) fun i hi values hvs => ?_)
  -- No instruction reads a sum, so that the words are those before the first instruction.
  have hwd (n : String) (hn : ∀ j, n ≠ sumName j) : values n = m.values n := hvs n (.inl fun j _ => hn j)
  have hsm : ∀ mac ∈ macs i, mac.products? values = mac.products? m.values := fun mac hmac => by
    rw [Mac.products?, hwd _ fun j => (hot i hi mac hmac j).1, hwd _ fun j => (hot i hi mac hmac j).2]
    rfl
  rw [← totalProducts_congr hsm]
  exact run_accumulates _ (macs i) { m with values } bias ((hvs _ (.inr rfl)).trans (hsum i hi))
    (fun mac hmac => hsm mac hmac ▸ hrd i hi mac hmac) fun mac hmac => hot i hi mac hmac i

lemma loadedNames_before {loads macs before after : List Statement} {s : Statement}
    (hbd : loads ++ macs = before ++ s :: after) (hs : s ∉ loads) (hmc : ∀ t ∈ macs, t.loadedName? = none) :
    s ∈ macs ∧ before.filterMap loadedName? = loads.filterMap loadedName? := by
  rcases append_eq_append_iff.mp hbd with ⟨middle, rfl, haft⟩ | ⟨middle, rfl, haft⟩
  · refine ⟨haft ▸ by simp, ?_⟩
    have hno : middle.filterMap loadedName? = [] :=
      filterMap_eq_nil_iff.mpr fun t ht => hmc t (haft ▸ mem_append_left _ ht)
    rw [filterMap_append, hno, append_nil]
  · cases middle with
    | nil =>
      refine ⟨?_, by simp⟩
      rw [nil_append] at haft
      exact haft ▸ mem_cons_self
    | cons t middle =>
      obtain ⟨rfl, -⟩ := cons.inj haft
      exact absurd (by simp) hs

/-- The loads and the instructions of a dot product leave in each sum the bias and the products of
the values of the tensor and of the kernel, modulo the size of a word. Every word that an
instruction reads has been declared by exactly one load before it. -/
theorem sums_after_instructions (d : DotProduct) (hd : d.Valid) (m : Machine) :
    ∃ tensorPart kernelPart macPart : List Statement,
      d.sections = .ok [[sumDeclaration d.outputs], tensorPart, kernelPart, macPart,
        rescaleStatements d.outputs d.shift d.zeroPoint,
        writeStatements d.outputs d.outputOffset d.outStride] ∧
      (∃ last, run (tensorPart ++ kernelPart ++ macPart) (m.biased d.outputs) = some last ∧
        ∀ i, 0 ≤ i → i < d.outputs → last.values (sumName i) =
          some (BitVec.ofInt 32 (m.bias.toInt +
            ∑ y ∈ Finset.range d.window.kernelHeight.toNat,
              ∑ x ∈ Finset.range d.window.kernelWidth.toNat,
                (m.tensor (d.tensorOffset + y * d.window.tensorWidth + x + i * d.inStride)).toInt *
                  (m.kernel (d.kernelOffset + y * d.window.kernelWidth + x)).toInt))) ∧
      ∀ before sum mac after,
        tensorPart ++ kernelPart ++ macPart = before ++ .accumulate sum mac :: after →
        (before.filterMap Statement.loadedName?).count mac.tensor = 1 ∧
          (before.filterMap Statement.loadedName?).count mac.kernel = 1 := by
  obtain ⟨macs, hmacs, hreads, hsums⟩ := macs_spec hd
  obtain ⟨values, hloads, hloaded, hbias⟩ := run_loads_eq hd m
  refine ⟨d.loadsOfTensor, d.loadsOfKernel,
    (below d.outputs).flatMap fun i => (macs i).map (.accumulate (sumName i)), ?_, ?_, ?_⟩
  · simp only [sections, tensorLoads_eq hd, kernelLoads_eq hd, hmacs, ok_bind, pure_eq_ok, List.flatMap_def]
  · obtain ⟨last, hrun, hlast, -⟩ := run_sums macs (below d.outputs) { m with values := values }
      m.bias (below_nodup d.outputs)
      (fun i hi => hbias i (mem_below.mp hi).1 (mem_below.mp hi).2)
      (fun i hi => (hsums m values hloaded i hi).1)
      (fun i hi mac hmac j => by
        obtain ⟨⟨w, -, hwt⟩, w', -, hwk⟩ := hreads i hi mac hmac
        rw [hwt, hwk]
        exact ⟨variable_ne_sumName _ _ _ j, variable_ne_sumName _ _ _ j⟩)
    refine ⟨last, by rw [run_append, hloads, Option.bind_some, hrun], ?_⟩
    intro i h0 hi
    have hi := mem_below.mpr ⟨h0, hi⟩
    rw [hlast i hi, (hsums m values hloaded i hi).2, BitVec.ofInt_add, BitVec.ofInt_toInt]
    rfl
  · intro before sum mac after hbody
    obtain ⟨hmem, hbefore⟩ := loadedNames_before hbody (by simp [loadsOfTensor, loadsOfKernel])
      (fun t ht => by
        obtain ⟨i, -, ht⟩ := List.mem_flatMap.mp ht
        obtain ⟨mac, -, rfl⟩ := List.mem_map.mp ht
        rfl)
    obtain ⟨i, hi, hmem⟩ := List.mem_flatMap.mp hmem
    obtain ⟨mac, hmac, heq⟩ := List.mem_map.mp hmem
    obtain ⟨rfl, rfl⟩ := Statement.accumulate.inj heq
    obtain ⟨⟨w, hw, hwt⟩, w', hw', hwk⟩ := hreads i hi mac hmac
    rw [hbefore]
    constructor
    · refine List.count_eq_one_of_mem (loadedNames_nodup hd) ?_
      rw [loadedNames_eq, hwt]
      exact List.mem_append_left _ (List.mem_map.mpr ⟨w, hw, rfl⟩)
    · refine List.count_eq_one_of_mem (loadedNames_nodup hd) ?_
      rw [loadedNames_eq, hwk]
      exact List.mem_append_right _ (List.mem_map.mpr ⟨w', hw', rfl⟩)

/-- Two outputs whose rows and whose kernel start between words. -/
theorem sums_of_two_outputs :
    let d : DotProduct := {
      outputs := 2
      window := { tensorWidth := 5, kernelHeight := 2, kernelWidth := 3 }
      tensorOffset := 1, kernelOffset := 1, outputOffset := 0, inStride := 2, outStride := 1 }
    let m : Machine := {
      tensor := fun p => BitVec.ofInt 16 (3 * p - 7), kernel := fun p => BitVec.ofInt 16 (2 - p)
      output := fun _ => 0, bias := 100, scale := 0, values := fun _ => none }
    d.Valid ∧ ∃ tensorPart kernelPart macPart last,
      d.sections = .ok [[sumDeclaration 2], tensorPart, kernelPart, macPart,
        rescaleStatements 2 33 (-128), writeStatements 2 0 1] ∧
      run (tensorPart ++ kernelPart ++ macPart) (m.biased 2) = some last ∧
      last.values "sum_0" = some (BitVec.ofInt 32 (-38)) ∧
      last.values "sum_1" = some (BitVec.ofInt 32 (-92)) := by
  intro d m
  have hd : d.Valid := by constructor <;> decide
  obtain ⟨tensorPart, kernelPart, macPart, hsections, ⟨last, hrun, hsums⟩, -⟩ := sums_after_instructions d hd m
  refine ⟨hd, tensorPart, kernelPart, macPart, last, hsections, hrun, ?_, ?_⟩
  · exact (hsums 0 (by decide) (by decide)).trans (by decide)
  · exact (hsums 1 (by decide) (by decide)).trans (by decide)

end DotProduct

end TensorToolchain.Microkernel
