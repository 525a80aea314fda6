import TensorToolchain.Proofs.Microkernel.Alignment

/-!
# Results in memory

The results of a dot product are stored as halfwords: one by one where they stand apart, else two in
a word where they fill one. In a packed word a negative low result borrows one from the high one. A
result that is left over is stored at the position of its number, which is its place only if the
output starts at a word.
-/

namespace TensorToolchain.Microkernel

open List

variable {p outputs i offset stride : Int} {m : Machine} {results : Int → Int} {writes : List (Int × BitVec 16)}

/-- The machine before the first store: the results are declared. -/
def Machine.rescaled (m : Machine) (outputs : Int) (results : Int → Int) : Machine :=
  { m with values := fun n =>
      ((below outputs).find? (resultName · == n)).map fun i => BitVec.ofInt 32 (results i) }

/-- The results stand at their places and all else is as before. -/
def Written (outputs offset stride : Int) (results : Int → Int) (before after : Int → BitVec 16) : Prop :=
  (∀ i, 0 ≤ i → i < outputs → after (offset + i * stride) = BitVec.ofInt 16 (results i)) ∧
    ∀ p, (∀ i, 0 ≤ i → i < outputs → p ≠ offset + i * stride) → after p = before p

/-! ### Halves of a packed word -/

lemma packed_eq (low high : Int) :
    BitVec.ofInt 32 low + BitVec.ofInt 32 high <<< 16 = BitVec.ofInt 32 (low + high * 65536) := by
  apply BitVec.eq_of_toNat_eq
  simp only [BitVec.toNat_add, BitVec.toNat_shiftLeft, BitVec.toNat_ofInt, Nat.shiftLeft_eq]
  omega

lemma bottom_packed (low high : Int) :
    Half.bottom.of (BitVec.ofInt 32 low + BitVec.ofInt 32 high <<< 16) = BitVec.ofInt 16 low := by
  rw [packed_eq]
  apply BitVec.eq_of_toNat_eq
  simp only [Half.of, BitVec.extractLsb'_toNat, BitVec.toNat_ofInt, Nat.shiftRight_eq_div_pow]
  omega

lemma top_packed {low high : Int} (h : -128 ≤ low ∧ low ≤ 127) :
    Half.top.of (BitVec.ofInt 32 low + BitVec.ofInt 32 high <<< 16) =
      BitVec.ofInt 16 (if low < 0 then high - 1 else high) := by
  rw [packed_eq]
  apply BitVec.eq_of_toNat_eq
  simp only [Half.of, BitVec.extractLsb'_toNat, BitVec.toNat_ofInt, Nat.shiftRight_eq_div_pow]
  split_ifs <;> omega

lemma setWidth_ofInt (v : Int) : (BitVec.ofInt 32 v).setWidth 16 = BitVec.ofInt 16 v := by
  apply BitVec.eq_of_toNat_eq
  simp only [BitVec.toNat_setWidth, BitVec.toNat_ofInt]
  omega

/-! ### Sequences of stores -/

def storeAll (memory : Int → BitVec 16) (writes : List (Int × BitVec 16)) : Int → BitVec 16 :=
  writes.foldl (fun memory w => Function.update memory w.1 w.2) memory

section

variable (memory : Int → BitVec 16)

@[simp] lemma storeAll_nil : storeAll memory [] = memory := rfl

@[simp] lemma storeAll_cons (w : Int × BitVec 16) (writes : List (Int × BitVec 16)) :
    storeAll memory (w :: writes) = storeAll (Function.update memory w.1 w.2) writes := rfl

lemma storeAll_append (first second : List (Int × BitVec 16)) :
    storeAll memory (first ++ second) = storeAll (storeAll memory first) second :=
  foldl_append

lemma storeAll_of_notMem (h : p ∉ writes.map Prod.fst) : storeAll memory writes p = memory p := by
  induction writes generalizing memory with
  | nil => rfl
  | cons w writes ih =>
    rw [map_cons, mem_cons, not_or] at h
    rw [storeAll_cons, ih _ h.2, Function.update_of_ne h.1]

lemma storeAll_of_mem {v : BitVec 16} (hnd : (writes.map Prod.fst).Nodup) (h : (p, v) ∈ writes) :
    storeAll memory writes p = v := by
  induction writes generalizing memory with
  | nil => simp at h
  | cons w writes ih =>
    rw [map_cons, nodup_cons] at hnd
    rw [storeAll_cons]
    rcases mem_cons.mp h with rfl | h
    · rw [storeAll_of_notMem _ hnd.1, Function.update_self]
    · exact ih _ hnd.2 h

end

lemma run_stores {α : Type} (statement : α → Statement) (writes : α → List (Int × BitVec 16))
    (items : List α) (m : Machine) (hex : ∀ a ∈ items, ∀ output, (statement a).exec { m with output } =
      some { m with output := storeAll output (writes a) }) :
    run (items.map statement) m = some { m with output := storeAll m.output (items.flatMap writes) } := by
  induction items generalizing m with
  | nil => rfl
  | cons a items ih =>
    rw [map_cons, run_cons, hex a mem_cons_self m.output, Option.bind_some, ih, flatMap_cons, storeAll_append]
    exact fun b hb output => hex b (mem_cons_of_mem a hb) output

/-! ### Stores of the results -/

lemma rescaled_result (m : Machine) (results : Int → Int) (h0 : 0 ≤ i) (hi : i < outputs) :
    (m.rescaled outputs results).values (resultName i) = some (BitVec.ofInt 32 (results i)) := by
  have hfn : (below outputs).find? (resultName · == resultName i) = some i := by
    have hsm : ((below outputs).find? (resultName · == resultName i)).isSome :=
      find?_isSome.mpr ⟨i, mem_below.mpr ⟨h0, hi⟩, by simp⟩
    obtain ⟨j, hj⟩ := Option.isSome_iff_exists.mp hsm
    have hnm := find?_some hj
    simp only [beq_iff_eq] at hnm
    rw [hj, resultName_injective hnm]
  simp [Machine.rescaled, hfn]

lemma rescaled_packed (m : Machine) (outputs i : Int) (results : Int → Int) :
    (m.rescaled outputs results).values (packedName i) = none := by
  have hfn : (below outputs).find? (resultName · == packedName i) = none :=
    find?_eq_none.2 fun j _ h => packedName_ne_resultName i j (beq_iff_eq.mp h).symm
  simp [Machine.rescaled, hfn]

/-- How many words the results fill if they stand together. -/
def packedWords (outputs offset : Int) : Int := (outputs - offset).fdiv 2

lemma packedWords_eq (outputs offset : Int) : packedWords outputs offset = (outputs - offset) / 2 :=
  Int.fdiv_eq_ediv_of_nonneg _ (by decide)

lemma writeStatements_together (h : ¬ 1 < stride) : writeStatements outputs offset stride =
      (below (packedWords outputs offset)).map (fun i => .pack i (2 * i + offset) (2 * i + offset + 1)) ++
        (if offset == 1 then [.storeHalf 1 0] else []) ++
        (below (packedWords outputs offset)).map (fun i => .storeWord (offset + i) i) ++
        if (offset + outputs) % 2 == 1 then
          [.storeHalf (packedWords outputs offset * 2) (packedWords outputs offset * 2)]
        else [] :=
  if_neg h

/-- What the high half of a packed word holds. -/
def packedHigh (offset : Int) (results : Int → Int) (i : Int) : Int :=
  if results (2 * i + offset) < 0 then results (2 * i + offset + 1) - 1
  else results (2 * i + offset + 1)

def wordWrites (outputs offset : Int) (results : Int → Int) : List (Int × BitVec 16) :=
  (below (packedWords outputs offset)).flatMap fun i =>
    [(2 * (offset + i), BitVec.ofInt 16 (results (2 * i + offset))),
      (2 * (offset + i) + 1, BitVec.ofInt 16 (packedHigh offset results i))]

/-- The halfwords that are stored if the results stand together, in order. -/
def unitWrites (outputs offset : Int) (results : Int → Int) : List (Int × BitVec 16) :=
  (if offset == 1 then [(1, BitVec.ofInt 16 (results 0))] else []) ++ wordWrites outputs offset results ++
    if (offset + outputs) % 2 == 1 then
      [(packedWords outputs offset * 2, BitVec.ofInt 16 (results (packedWords outputs offset * 2)))]
    else []

lemma exec_storeHalf (hrs : m.values (resultName i) = some (BitVec.ofInt 32 (results i))) (p : Int)
    (output : Int → BitVec 16) : (Statement.storeHalf p i).exec { m with output } =
      some { m with output := storeAll output [(p, .ofInt 16 (results i))] } := by
  simp [Statement.exec, hrs, setWidth_ofInt, Machine.store]

lemma run_storeHalf_if {c : Bool} (p : Int) (hrs : c → m.values (resultName i) = some (BitVec.ofInt 32 (results i))) :
    run (if c then [.storeHalf p i] else []) m = some { m with
        output := storeAll m.output (if c then [(p, .ofInt 16 (results i))] else []) } := by
  cases c with
  | false => rfl
  | true =>
    simp only [if_true, run_cons]
    rw [exec_storeHalf (hrs rfl) p m.output]
    rfl

lemma run_storeWords
    (hwr : ∀ i ∈ below (packedWords outputs offset), m.values (packedName i) =
      some (BitVec.ofInt 32 (results (2 * i + offset)) + BitVec.ofInt 32 (results (2 * i + offset + 1)) <<< 16))
    (hrs : ∀ i ∈ below (packedWords outputs offset), -128 ≤ results (2 * i + offset) ∧ results (2 * i + offset) ≤ 127) :
    run ((below (packedWords outputs offset)).map fun i => .storeWord (offset + i) i) m =
      some { m with output := storeAll m.output (wordWrites outputs offset results) } := by
  refine run_stores _ _ _ m fun i hi output => ?_
  simp [Statement.exec, hwr i hi, Machine.store, bottom_packed, packedHigh, top_packed (hrs i hi)]

/-! ### Execution of the stores -/

lemma run_apart (m : Machine) (outputs offset : Int) (results : Int → Int) (hst : 1 < stride) :
    run (writeStatements outputs offset stride) (m.rescaled outputs results) = some { m.rescaled outputs results with
        output := storeAll m.output ((below outputs).flatMap fun i =>
          [(i * stride + offset, .ofInt 16 (results i))]) } := by
  rw [writeStatements, if_pos hst]
  refine run_stores _ _ _ _ fun i hi output => exec_storeHalf ?_ _ _
  exact rescaled_result m results (mem_below.mp hi).1 (mem_below.mp hi).2

lemma packed_lt (hof : offset = 0 ∨ offset = 1) (hi : i ∈ below (packedWords outputs offset)) :
    0 ≤ 2 * i + offset ∧ 2 * i + offset + 1 < outputs := by
  have := mem_below.mp hi
  rw [packedWords_eq] at this
  omega

/-- Results that stand together are packed in words, but for one in front of the first word and one
behind the last. -/
lemma run_together (m : Machine) (hot : 1 ≤ outputs) (hof : offset = 0 ∨ offset = 1) (hst : ¬ 1 < stride)
    (hrsl : ∀ i, 0 ≤ i → i < outputs → -128 ≤ results i ∧ results i ≤ 127) :
    ∃ last, run (writeStatements outputs offset stride) (m.rescaled outputs results) = some last ∧
      last.output = storeAll m.output (unitWrites outputs offset results) := by
  have hrd : ∀ values : String → Option (BitVec 32),
      (∀ n, (∀ i ∈ below (packedWords outputs offset), n ≠ packedName i) →
        values n = (m.rescaled outputs results).values n) →
      ∀ j, 0 ≤ j → j < outputs → values (resultName j) = some (.ofInt 32 (results j)) := by
    intro values hvs j h0 hj
    rw [hvs _ fun i _ => (packedName_ne_resultName i j).symm, rescaled_result m results h0 hj]
  obtain ⟨values, hpc, hwr, hkp⟩ := run_declarations (fun i => .pack i (2 * i + offset) (2 * i + offset + 1)) packedName
    (fun i => .ofInt 32 (results (2 * i + offset)) + BitVec.ofInt 32 (results (2 * i + offset + 1)) <<< 16)
    (below (packedWords outputs offset)) (m.rescaled outputs results)
    ((below_nodup _).map fun _ _ h => packedName_injective h)
    (fun i _ => rescaled_packed m outputs i results)
    (fun i hi values hvs => by
      have hlow := packed_lt hof hi
      simp [Statement.exec, hrd values hvs _ hlow.1 (by omega), hrd values hvs _ (by omega) hlow.2])
  have hrs := hrd values hkp
  have hpck := packedWords_eq outputs offset
  refine ⟨{ m with values, output := storeAll m.output _ }, ?_, rfl⟩
  rw [writeStatements_together hst, run_append, run_append, run_append, hpc, Option.bind_some,
    run_storeHalf_if 1 fun _ => hrs 0 le_rfl (by omega), Option.bind_some,
    run_storeWords hwr fun i hi => hrsl _ (packed_lt hof hi).1 (by linarith [(packed_lt hof hi).2]),
    Option.bind_some, run_storeHalf_if _ fun h => hrs _ (by omega) (by simp at h; omega),
    unitWrites, storeAll_append, storeAll_append]
  rfl

/-! ### Where the results stand -/

lemma mem_unitWrites {w : Int × BitVec 16} : w ∈ unitWrites outputs offset results ↔
      (offset = 1 ∧ w = (1, BitVec.ofInt 16 (results 0))) ∨ (∃ i ∈ below (packedWords outputs offset),
        w = (2 * (offset + i), BitVec.ofInt 16 (results (2 * i + offset))) ∨
        w = (2 * (offset + i) + 1, BitVec.ofInt 16 (packedHigh offset results i))) ∨
      ((offset + outputs) % 2 = 1 ∧ w = (packedWords outputs offset * 2,
        BitVec.ofInt 16 (results (packedWords outputs offset * 2)))) := by
  simp only [unitWrites, wordWrites, mem_append, mem_flatMap, mem_cons, not_mem_nil, or_false, or_assoc]
  refine or_congr ?_ (or_congr .rfl ?_)
  · split_ifs with h <;> simp_all
  · split_ifs with h <;> simp_all

/-- A halfword is written twice only if one is left over behind a word that does not start the
output. -/
lemma unitWrites_nodup (results : Int → Int) (hof : offset = 0 ∨ offset = 1)
    (hlf : offset = 0 ∨ outputs % 2 = 1) : ((unitWrites outputs offset results).map Prod.fst).Nodup := by
  have hwr : ((wordWrites outputs offset results).map Prod.fst).Nodup := by
    rw [wordWrites, map_flatMap, nodup_flatMap]
    refine ⟨fun i _ => by simp, (below_nodup _).imp fun {i j} hij p hi hj => ?_⟩
    simp only [map_cons, map_nil, mem_cons, not_mem_nil, or_false] at hi hj
    omega
  have hbn : ∀ p ∈ (wordWrites outputs offset results).map Prod.fst,
      2 * offset ≤ p ∧ p < 2 * (offset + packedWords outputs offset) := by
    intro p hp
    rw [wordWrites, map_flatMap, mem_flatMap] at hp
    obtain ⟨i, hi, hp⟩ := hp
    have := mem_below.mp hi
    simp only [map_cons, map_nil, mem_cons, not_mem_nil, or_false] at hp
    omega
  rw [unitWrites, map_append, map_append]
  refine Nodup.append (Nodup.append ?_ hwr ?_) ?_ ?_
  · split_ifs <;> simp
  · intro p hp hp'
    have := hbn p hp'
    split_ifs at hp with h
    · simp only [map_cons, map_nil, mem_singleton] at hp
      simp only [beq_iff_eq] at h
      omega
    · simp at hp
  · split_ifs <;> simp
  · intro p hp hp'
    split_ifs at hp' with h
    · -- Behind the words one is left over only if the output starts at a word.
      simp only [map_cons, map_nil, mem_singleton] at hp'
      simp only [beq_iff_eq] at h
      have hz : offset = 0 := by omega
      rcases mem_append.mp hp with hp | hp
      · simp [hz] at hp
      · have := hbn p hp
        omega
    · simp at hp'

lemma ofInt_sub_one_ne (v : Int) : BitVec.ofInt 16 (v - 1) ≠ BitVec.ofInt 16 v := by
  intro h
  have := congrArg BitVec.toNat h
  simp only [BitVec.toNat_ofInt] at this
  omega

lemma written_apart (memory : Int → BitVec 16) (outputs offset : Int) (results : Int → Int) (hst : 1 ≤ stride) :
    Written outputs offset stride results memory (storeAll memory ((below outputs).flatMap fun i =>
        [(i * stride + offset, BitVec.ofInt 16 (results i))])) := by
  rw [← map_eq_flatMap]
  constructor
  · intro i h0 hi
    refine storeAll_of_mem memory ?_ (mem_map.mpr ⟨i, mem_below.mpr ⟨h0, hi⟩, by rw [add_comm]⟩)
    rw [map_map]
    refine (below_nodup outputs).map fun i j h => ?_
    exact mul_right_cancel₀ (by omega : stride ≠ 0) (add_right_cancel h)
  · intro p hp
    refine storeAll_of_notMem memory fun h => ?_
    rw [map_map] at h
    obtain ⟨i, hi, rfl⟩ := mem_map.mp h
    exact hp i (mem_below.mp hi).1 (mem_below.mp hi).2 (add_comm _ _)

/-- Results that stand together are stored at their places if none is left over at a wrong one and
no packed word borrows. -/
lemma written_together (memory : Int → BitVec 16) (hot : 1 ≤ outputs)
    (hof : offset = 0 ∨ offset = 1) (hlf : offset = 0 ∨ outputs % 2 = 1)
    (hlow : ∀ i, 0 ≤ i → 2 * i + offset + 1 < outputs → 0 ≤ results (2 * i + offset)) :
    Written outputs offset 1 results memory (storeAll memory (unitWrites outputs offset results)) := by
  have hpc := packedWords_eq outputs offset
  constructor
  · intro i h0 hi
    refine storeAll_of_mem memory (unitWrites_nodup results hof hlf) (mem_unitWrites.mpr ?_)
    by_cases hfst : i < offset
    · exact .inl ⟨by omega, by congr 1 <;> [omega; (congr 2; omega)]⟩
    by_cases hwr : (i - offset) / 2 < packedWords outputs offset
    · refine .inr (.inl ⟨(i - offset) / 2, mem_below.mpr ⟨by omega, hwr⟩, ?_⟩)
      by_cases hpr : (i - offset) % 2 = 0
      · exact .inl (by congr 1 <;> [omega; (congr 2; omega)])
      · have hnn := hlow ((i - offset) / 2) (by omega) (by omega)
        refine .inr ?_
        rw [packedHigh, if_neg (by omega)]
        congr 1 <;> [omega; (congr 2; omega)]
    · exact .inr (.inr ⟨by omega, by congr 1 <;> [omega; (congr 2; omega)]⟩)
  · intro p hp
    refine storeAll_of_notMem memory fun h => ?_
    obtain ⟨w, hw, rfl⟩ := mem_map.mp h
    rcases mem_unitWrites.mp hw with ⟨h, rfl⟩ | ⟨i, hi, rfl | rfl⟩ | ⟨h, rfl⟩
    · exact hp 0 le_rfl (by omega) (by omega)
    · have := packed_lt hof hi
      exact hp _ this.1 (by omega) (by ring)
    · have := packed_lt hof hi
      exact hp _ (by omega) this.2 (by ring)
    · exact hp (packedWords outputs offset * 2) (by omega) (by omega) (by omega)

/-- If results that stand together are stored at their places whatever the memory held before, none
is left over at a wrong place and no packed word borrows. -/
lemma of_written_together (hot : 1 ≤ outputs) (hof : offset = 0 ∨ offset = 1)
    (hwr : ∀ memory, Written outputs offset 1 results memory (storeAll memory (unitWrites outputs offset results))) :
    (offset = 0 ∨ outputs % 2 = 1) ∧ ∀ i, 0 ≤ i → 2 * i + offset + 1 < outputs → 0 ≤ results (2 * i + offset) := by
  have hpc := packedWords_eq outputs offset
  have hlf : offset = 0 ∨ outputs % 2 = 1 := by
    by_contra hnot
    -- The place of the last result is not written, so it keeps what it held before.
    have hlst : offset + (outputs - 1) * 1 ∉ (unitWrites outputs offset results).map Prod.fst := by
      intro h
      obtain ⟨w, hw, hp⟩ := mem_map.mp h
      rcases mem_unitWrites.mp hw with ⟨-, rfl⟩ | ⟨i, hi, rfl | rfl⟩ | ⟨-, rfl⟩ <;> simp only at hp
      · omega
      · have := mem_below.mp hi
        omega
      · omega
      · omega
    have hpl := (hwr fun _ => .ofInt 16 (results (outputs - 1) - 1)).1 (outputs - 1) (by omega) (by omega)
    rw [storeAll_of_notMem _ hlst] at hpl
    exact ofInt_sub_one_ne _ hpl
  refine ⟨hlf, fun i h0 hi => ?_⟩
  by_contra hneg
  have hpl := (hwr fun _ => 0).1 _ (by omega) hi
  have hmem : (offset + (2 * i + offset + 1) * 1,
      .ofInt 16 (results (2 * i + offset + 1) - 1)) ∈ unitWrites outputs offset results := by
    refine mem_unitWrites.mpr (.inr (.inl ⟨i, mem_below.mpr ⟨h0, by omega⟩, .inr ?_⟩))
    rw [packedHigh, if_pos (by omega)]
    congr 1
    ring
  rw [storeAll_of_mem _ (unitWrites_nodup results hof hlf) hmem] at hpl
  exact ofInt_sub_one_ne _ hpl

/-- The stores of a dot product always succeed. They leave every result at its place and change
nothing else, whatever the memory held before, exactly if the results stand apart, or if none is
left over behind the packed words of an output that starts between words and no result in the low
half of a packed word is negative. -/
theorem stores_written_iff {outputs offset stride : Int} {results : Int → Int}
    (houtputs : 1 ≤ outputs) (hoffset : offset = 0 ∨ offset = 1) (hstride : 1 ≤ stride)
    (hresults : ∀ i, 0 ≤ i → i < outputs → -128 ≤ results i ∧ results i ≤ 127) :
    (∀ m : Machine, (run (writeStatements outputs offset stride) (m.rescaled outputs results)).isSome) ∧
    ((∀ m : Machine, ∃ last,
        run (writeStatements outputs offset stride) (m.rescaled outputs results) = some last ∧
        Written outputs offset stride results m.output last.output) ↔
      1 < stride ∨ (offset = 0 ∨ outputs % 2 = 1) ∧
        ∀ i, 0 ≤ i → 2 * i + offset + 1 < outputs → 0 ≤ results (2 * i + offset)) := by
  by_cases hapart : 1 < stride
  · refine ⟨fun m => by rw [run_apart m outputs offset results hapart]; rfl, ?_⟩
    exact ⟨fun _ => .inl hapart, fun _ m =>
      ⟨_, run_apart m outputs offset results hapart, written_apart _ _ _ _ hstride⟩⟩
  · obtain rfl : stride = 1 := by omega
    have hrun := fun m : Machine => run_together m houtputs hoffset hapart hresults
    refine ⟨fun m => by obtain ⟨last, h, -⟩ := hrun m; rw [h]; rfl, ?_, ?_⟩
    · intro hall
      have hwritten : ∀ memory, Written outputs offset 1 results memory
          (storeAll memory (unitWrites outputs offset results)) := by
        intro memory
        let m : Machine := ⟨memory, memory, memory, 0, 0, fun _ => none⟩
        obtain ⟨last, hlast, hw⟩ := hall m
        obtain ⟨last', hlast', houtput⟩ := hrun m
        rw [hlast, Option.some.injEq] at hlast'
        rwa [hlast', houtput] at hw
      exact .inr (of_written_together houtputs hoffset hwritten)
    · rintro (h | ⟨hleft, hlow⟩) m
      · exact absurd h hapart
      · obtain ⟨last, hlast, houtput⟩ := hrun m
        exact ⟨last, hlast, houtput ▸ written_together _ houtputs hoffset hleft hlow⟩

/-- Three results behind a halfword that is not used: the first is stored alone, and a negative
result in a high half does no harm. -/
theorem three_stores_written :
    let results : Int → Int := fun i => if i = 2 then -9 else 5 + i
    (∀ i, 0 ≤ i → i < 3 → -128 ≤ results i ∧ results i ≤ 127) ∧
      ∀ m : Machine, ∃ last, run (writeStatements 3 1 1) (m.rescaled 3 results) = some last ∧
        Written 3 1 1 results m.output last.output := by
  intro results
  have hresults : ∀ i, 0 ≤ i → i < 3 → -128 ≤ results i ∧ results i ≤ 127 := by
    intro i h0 hi
    simp only [results]
    split_ifs <;> omega
  refine ⟨hresults, (stores_written_iff (by decide) (.inr rfl) (by decide) hresults).2.mpr ?_⟩
  refine .inr ⟨.inr rfl, fun i h0 hi => ?_⟩
  obtain rfl : i = 0 := by omega
  decide

/-- A negative result in a low half takes one from the result in the high half, and the second of
two results behind a halfword that is not used is lost. -/
theorem stores_lose_results :
    let m : Machine := ⟨fun _ => 0, fun _ => 0, fun _ => 0, 0, 0, fun _ => none⟩
    let results : Int → Int := fun i => if i = 0 then -1 else 5
    (∃ last, run (writeStatements 2 0 1) (m.rescaled 2 results) = some last ∧
      last.output 1 = BitVec.ofInt 16 4 ∧ ¬ Written 2 0 1 results m.output last.output) ∧
    ∃ last, run (writeStatements 2 1 1) (m.rescaled 2 results) = some last ∧
      last.output 0 = BitVec.ofInt 16 (-1) ∧ last.output 2 = 0 ∧
      ¬ Written 2 1 1 results m.output last.output := by
  intro m results
  have hresults : ∀ i, 0 ≤ i → i < 2 → -128 ≤ results i ∧ results i ≤ 127 := by
    intro i _ _
    simp only [results]
    split_ifs <;> omega
  constructor
  · obtain ⟨last, hrun, houtput⟩ := run_together m (by decide) (.inl rfl) (lt_irrefl 1) hresults
    refine ⟨last, hrun, by rw [houtput]; decide, fun h => ?_⟩
    have hplace := h.1 1 (by decide) (by decide)
    rw [houtput] at hplace
    exact absurd hplace (by decide)
  · obtain ⟨last, hrun, houtput⟩ := run_together m (by decide) (.inr rfl) (lt_irrefl 1) hresults
    refine ⟨last, hrun, by rw [houtput]; decide, by rw [houtput]; decide, fun h => ?_⟩
    have hplace := h.1 1 (by decide) (by decide)
    rw [houtput] at hplace
    exact absurd hplace (by decide)

end TensorToolchain.Microkernel
