import TensorToolchain.Proofs.Microkernel.Accumulation
import TensorToolchain.Proofs.Microkernel.Stores

/-!
# Declarations in the body of a dot product

Sums are declared under their numbers in hexadecimal digits and used under their decimal ones. Up to
ten outputs these agree, and every variable is declared once and before it is used. From eleven
outputs on the last sum is not declared.
-/

namespace TensorToolchain.Microkernel

open List Statement

variable {α : Type} {known : List String} {body : List Statement} {i j outputs offset : Int} {d : DotProduct}

/-- The variables that a statement declares. -/
def Statement.declared : Statement → List String
  | declareSums names => names
  | load _ name _ => [name]
  | loadScale => ["scale_val"]
  | rescale output _ => [resultName output]
  | pack word _ _ => [packedName word]
  | _ => []

/-- The variables that a statement reads or changes. -/
def Statement.used : Statement → List String
  | accumulate sum mac => [sum, mac.tensor, mac.kernel]
  | rescale output _ => [sumName output, "scale_val"]
  | halve output | saturate output _ | storeHalf _ output => [resultName output]
  | pack _ low high => [resultName low, resultName high]
  | storeWord _ word => [packedName word]
  | _ => []

/-- Every variable that a statement uses is known or declared by a statement before it. -/
def Closed (known : List String) : List Statement → Prop
  | [] => True
  | s :: body => s.used ⊆ known ∧ Closed (known ++ s.declared) body

/-- Every variable is declared once, and before it is used. -/
def Scoped (body : List Statement) : Prop := (body.flatMap declared).Nodup ∧ Closed [] body

lemma closed_append (first second : List Statement) : Closed known (first ++ second) ↔
      Closed known first ∧ Closed (known ++ first.flatMap declared) second := by
  induction first generalizing known with
  | nil => simp [Closed]
  | cons s first ih => rw [cons_append, Closed, Closed, ih, flatMap_cons, append_assoc, and_assoc]

lemma closed_of_used (h : ∀ s ∈ body, s.used ⊆ known) : Closed known body := by
  induction body generalizing known with
  | nil => trivial
  | cons s body ih =>
    rw [forall_mem_cons] at h
    exact ⟨h.1, ih fun t ht => subset_append_of_subset_left _ (h.2 t ht)⟩

lemma Closed.used_subset {s : Statement} (h : Closed known body) (hs : s ∈ body) :
    s.used ⊆ known ++ body.flatMap declared := by
  obtain ⟨first, second, rfl⟩ := append_of_mem hs
  rw [flatMap_append, ← append_assoc]
  exact subset_append_of_subset_left _ ((closed_append _ _).mp h).2.1

lemma flatMap_declared_map {statement : α → Statement} {name : α → String}
    (h : ∀ a, (statement a).declared = [name a]) (items : List α) :
    (items.map statement).flatMap declared = items.map name := by
  simp [flatMap_map, h, ← map_eq_flatMap]

/-! ### Names of sums -/

lemma lt_hexValue {n : Nat} (h : 10 ≤ n) : n < hexValue (Nat.toDigits 10 n) := by
  induction n using Nat.strong_induction_on with
  | _ n ih =>
    rw [hexValue_toDigits_of_le (by decide) (by decide), if_neg (by omega)]
    by_cases hn : 10 ≤ n / 10
    · have := ih (n / 10) (by omega) hn
      omega
    · rw [hexValue_toDigits_of_le (by decide) (by decide), if_pos (by omega)]
      omega

lemma eq_of_declaredSumName_eq (digits : List Char) (h0 : 0 ≤ i) (h : declaredSumName i = "sum_" ++ .ofList digits) :
    i = hexValue digits := by
  have htext := congrArg String.toList (String.append_right_inj _ |>.mp h)
  rw [toList_hexText, if_neg (by omega), nil_append, String.toList_ofList] at htext
  rw [← htext, hexValue_toDigits]
  omega

lemma declaredSumName_ne (h0 : 0 ≤ i) (hi : i ≤ j) (hj : 10 ≤ j) : declaredSumName i ≠ sumName j := by
  obtain ⟨n, rfl⟩ := Int.eq_ofNat_of_zero_le (by omega : 0 ≤ j)
  intro h
  have := eq_of_declaredSumName_eq (Nat.toDigits 10 n) h0 h
  have := lt_hexValue (n := n) (by omega)
  omega

lemma declaredSumNames_nodup (outputs : Int) : ((below outputs).map declaredSumName).Nodup := by
  refine (below_nodup outputs).map_on fun i hi j hj h => ?_
  have hi := (mem_below.mp hi).1
  have hj := (mem_below.mp hj).1
  have htext : hexText j = .ofList (Nat.toDigits 16 j.natAbs) := if_neg (by omega)
  rw [eq_of_declaredSumName_eq (Nat.toDigits 16 j.natAbs) hi (by rw [h, declaredSumName, htext]),
    hexValue_toDigits]
  omega

/-! ### Sections of the body -/

lemma closed_rescaled (shift zeroPoint : Int) {outputs : List Int} (hsum : ∀ i ∈ outputs, sumName i ∈ known)
    (hscale : "scale_val" ∈ known) :
    Closed known (outputs.flatMap fun i => [.rescale i shift, .halve i, .saturate i zeroPoint]) := by
  induction outputs generalizing known with
  | nil => trivial
  | cons i outputs ih =>
    rw [forall_mem_cons] at hsum
    rw [flatMap_cons, closed_append]
    exact ⟨by simp [Closed, used, declared, hsum.1, hscale],
      ih (fun j hj => mem_append_left _ (hsum.2 j hj)) (mem_append_left _ hscale)⟩

lemma declared_writeStatements (outputs offset stride : Int) : (writeStatements outputs offset stride).flatMap declared =
      if 1 < stride then [] else (below (packedWords outputs offset)).map packedName := by
  rw [writeStatements]
  split_ifs <;> simp [flatMap_map, declared, packedWords, ← map_eq_flatMap]

lemma closed_writeStatements (stride : Int) (hot : 1 ≤ outputs) (hof : offset = 0 ∨ offset = 1)
    (hrs : ∀ i, 0 ≤ i → i < outputs → resultName i ∈ known) :
    Closed known (writeStatements outputs offset stride) := by
  by_cases hst : 1 < stride
  · rw [writeStatements, if_pos hst]
    refine closed_of_used (forall_mem_map.mpr fun i hi => ?_)
    simpa [used] using hrs i (mem_below.mp hi).1 (mem_below.mp hi).2
  have hpck := packedWords_eq outputs offset
  rw [writeStatements_together hst, append_assoc, append_assoc, closed_append, flatMap_declared_map fun _ => rfl]
  refine ⟨closed_of_used (forall_mem_map.mpr fun i hi => ?_), closed_of_used fun s hs => ?_⟩
  · have hlow := packed_lt hof hi
    simp [used, hrs _ hlow.1 (by omega), hrs _ (by omega) hlow.2]
  · simp only [mem_append, mem_map, mem_ite_nil_right, mem_singleton, beq_iff_eq] at hs
    rcases hs with ⟨-, rfl⟩ | ⟨i, hi, rfl⟩ | ⟨hlast, rfl⟩
    · simp [used, hrs 0 le_rfl (by omega)]
    · exact cons_subset.mpr ⟨mem_append_right _ (mem_map_of_mem hi), nil_subset _⟩
    · simp [used, hrs (packedWords outputs offset * 2) (by omega) (by omega)]

/-! ### The body -/

namespace DotProduct

/-- The variables of a body by their first two characters. -/
def locals (d : DotProduct) : List (List Char × List String) := [
  (['s', 'u'], (below d.outputs).map declaredSumName),
  (['t', 'e'], (wordsOf d.tensor).map fun w => Source.tensor.variable w.1 w.2),
  (['k', 'e'], (wordsOf d.kernel).map fun w => Source.kernel.variable w.1 w.2),
  (['s', 'c'], ["scale_val"]),
  (['r', 'e'], (below d.outputs).map resultName),
  (['p', 'a'], (writeStatements d.outputs d.outputOffset d.outStride).flatMap declared)]

lemma take_of_mem_locals {g : List Char × List String} {n : String} (hg : g ∈ d.locals) (hn : n ∈ g.2) :
    n.toList.take 2 = g.1 := by
  simp only [locals, declared_writeStatements, mem_cons, not_mem_nil, or_false] at hg
  rcases hg with rfl | rfl | rfl | rfl | rfl | rfl
  · obtain ⟨i, -, rfl⟩ := mem_map.mp hn
    simp [declaredSumName]
  · obtain ⟨w, -, rfl⟩ := mem_map.mp hn
    simp [Source.variable, Source.name]
  · obtain ⟨w, -, rfl⟩ := mem_map.mp hn
    simp [Source.variable, Source.name]
  · rw [mem_singleton.mp hn]
    rfl
  · obtain ⟨i, -, rfl⟩ := mem_map.mp hn
    simp [resultName]
  · split_ifs at hn
    · simp at hn
    · obtain ⟨i, -, rfl⟩ := mem_map.mp hn
      simp [packedName]

lemma locals_nodup (hd : d.Valid) : (d.locals.flatMap Prod.snd).Nodup := by
  refine nodup_flatMap.mpr ⟨?_, ?_⟩
  · simp only [locals, declared_writeStatements, forall_mem_cons, not_mem_nil]
    refine ⟨declaredSumNames_nodup _, tensorNames_nodup hd, kernelNames_nodup hd, nodup_singleton _,
      (below_nodup _).map fun _ _ => resultName_injective, ?_, by simp⟩
    split_ifs
    · exact nodup_nil
    · exact (below_nodup _).map fun _ _ => packedName_injective
  · have hkinds : d.locals.Pairwise fun g g' => g.1 ≠ g'.1 := pairwise_map.mp (by simp [locals])
    exact hkinds.imp_of_mem fun hg hg' hne n hn hn' =>
      hne ((take_of_mem_locals hg hn).symm.trans (take_of_mem_locals hg' hn'))

/-- The sections of a body, given the instructions for each output. -/
def parts (d : DotProduct) (macs : Int → List Mac) : List (List Statement) :=
  [[sumDeclaration d.outputs], d.loadsOfTensor, d.loadsOfKernel,
    (below d.outputs).flatMap fun i => (macs i).map (.accumulate (sumName i)),
    rescaleStatements d.outputs d.shift d.zeroPoint, writeStatements d.outputs d.outputOffset d.outStride]

lemma declared_tensor (d : DotProduct) : d.loadsOfTensor.flatMap declared =
      (wordsOf d.tensor).map fun w => Source.tensor.variable w.1 w.2 := flatMap_declared_map (fun _ => rfl) _

lemma declared_kernel (d : DotProduct) : d.loadsOfKernel.flatMap declared =
      (wordsOf d.kernel).map fun w => Source.kernel.variable w.1 w.2 := by
  rw [← kernelNames_eq]
  exact flatMap_declared_map (fun _ => rfl) _

lemma declared_macs (outputs : List Int) (macs : Int → List Mac) :
    (outputs.flatMap fun i => (macs i).map (.accumulate (sumName i))).flatMap declared = [] := by
  simp only [flatMap_assoc, flatMap_map]
  simp [declared]

lemma declared_rescaleStatements (outputs shift zeroPoint : Int) :
    (rescaleStatements outputs shift zeroPoint).flatMap declared = "scale_val" :: (below outputs).map resultName := by
  simp [rescaleStatements, flatMap_assoc, declared, ← map_eq_flatMap]

lemma declared_parts (d : DotProduct) (macs : Int → List Mac) :
    (d.parts macs).flatten.flatMap declared = d.locals.flatMap Prod.snd := by
  simp [parts, declared_tensor, declared_kernel, declared_macs, declared_rescaleStatements, locals, sumDeclaration,
    declared]

lemma closed_parts {macs : Int → List Mac} (hd : d.Valid) (hof : d.outputOffset = 0 ∨ d.outputOffset = 1)
    (hreads : ∀ i ∈ below d.outputs, ∀ mac ∈ macs i, d.Reads mac) (hten : d.outputs ≤ 10) :
    Closed [] (d.parts macs).flatten := by
  have hsum : ∀ i ∈ below d.outputs, sumName i ∈ (sumDeclaration d.outputs).declared := fun i hi => by
    have hi' := mem_below.mp hi
    have heq : declaredSumName i = sumName i := by
      obtain ⟨h0, h10⟩ : 0 ≤ i ∧ i < 10 := by omega
      interval_cases i <;> rfl
    exact heq ▸ mem_map_of_mem hi
  simp only [parts, flatten_cons, flatten_nil, append_nil, closed_append, declared_tensor, declared_kernel,
    declared_macs, declared_rescaleStatements, flatMap_singleton, nil_append]
  refine ⟨⟨nil_subset _, trivial⟩, ?_, ?_, ?_, ⟨nil_subset _, ?_⟩, ?_⟩
  · exact closed_of_used (forall_mem_map.mpr fun _ _ => nil_subset _)
  · exact closed_of_used (forall_mem_map.mpr fun _ _ => nil_subset _)
  · refine closed_of_used fun s hs => ?_
    obtain ⟨i, hi, hs⟩ := mem_flatMap.mp hs
    obtain ⟨mac, hmac, rfl⟩ := mem_map.mp hs
    obtain ⟨⟨w, hw, ht⟩, w', hw', hk⟩ := hreads i hi mac hmac
    simp only [used, ht, hk, cons_subset, mem_append]
    exact ⟨.inl (.inl (hsum i hi)), .inl (.inr (mem_map_of_mem hw)), .inr (mem_map_of_mem hw'), nil_subset _⟩
  · refine closed_rescaled _ _ (fun i hi => ?_) (by simp [declared])
    simp only [mem_append]
    exact .inl (.inl (.inl (hsum i hi)))
  · refine closed_writeStatements _ hd.outputs_pos hof fun i h0 hi => mem_append_right _ (mem_cons_of_mem _ ?_)
    exact mem_map_of_mem (mem_below.mpr ⟨h0, hi⟩)

lemma exists_parts (hd : d.Valid) :
    ∃ macs, d.sections = .ok (d.parts macs) ∧ ∀ i ∈ below d.outputs, ∀ mac ∈ macs i, d.Reads mac := by
  obtain ⟨macs, hmacs, hreads, -⟩ := macs_spec hd
  refine ⟨macs, ?_, hreads⟩
  simp only [sections, tensorLoads_eq hd, kernelLoads_eq hd, hmacs, ok_bind, pure_eq_ok, parts, flatMap_def]

/-- The last of more than ten sums is rescaled, but no sum is declared under its name. -/
lemma not_closed_parts (macs : Int → List Mac) (hmany : 10 < d.outputs) : ¬ Closed [] (d.parts macs).flatten := by
  intro h
  have hmem : rescale (d.outputs - 1) d.shift ∈ (d.parts macs).flatten := by
    simp [parts, rescaleStatements]
    omega
  have hused := h.used_subset hmem (mem_cons_self : sumName (d.outputs - 1) ∈ _)
  rw [nil_append, declared_parts] at hused
  obtain ⟨g, hg, hn⟩ := mem_flatMap.mp hused
  have hkind := take_of_mem_locals hg hn
  simp only [locals, mem_cons, not_mem_nil, or_false] at hg
  rcases hg with rfl | rfl | rfl | rfl | rfl | rfl
  · obtain ⟨j, hj, hname⟩ := mem_map.mp hn
    have := mem_below.mp hj
    exact declaredSumName_ne this.1 (by omega) (by omega) hname
  all_goals simp [sumName] at hkind

/-- The body of a dot product declares every variable once and before it is used if and only if it
has at most ten outputs. -/
theorem scoped_iff_outputs_le_ten (d : DotProduct) (hd : d.Valid) (hoffset : d.outputOffset = 0 ∨ d.outputOffset = 1) :
    ∃ sections, d.sections = .ok sections ∧ (Scoped sections.flatten ↔ d.outputs ≤ 10) := by
  obtain ⟨macs, hok, hreads⟩ := exists_parts hd
  refine ⟨_, hok, fun h => ?_, fun h => ⟨?_, closed_parts hd hoffset hreads h⟩⟩
  · by_contra hmany
    exact not_closed_parts macs (by omega) h.2
  · rw [declared_parts]
    exact locals_nodup hd

theorem tenPoints_scoped :
    ∃ sections, { pointProduct with outputs := 10 }.sections = .ok sections ∧ Scoped sections.flatten := by
  obtain ⟨sections, hok, hscoped⟩ := scoped_iff_outputs_le_ten { pointProduct with outputs := 10 }
    (by constructor <;> decide) (.inr rfl)
  exact ⟨sections, hok, hscoped.mpr (by decide)⟩

/-- The eleventh sum is declared as `sum_a` and used as `sum_10`. -/
theorem elevenPoints_not_scoped :
    ∃ sections, { pointProduct with outputs := 11 }.sections = .ok sections ∧ ¬ Scoped sections.flatten := by
  obtain ⟨macs, hok, -⟩ := exists_parts (d := { pointProduct with outputs := 11 }) (by constructor <;> decide)
  exact ⟨_, hok, fun h => not_closed_parts macs (by decide) h.2⟩

end DotProduct

end TensorToolchain.Microkernel
