import TensorToolchain.Proofs.LayoutChoice.TracedChoice

/-!
# The choices at the outputs

The tables of the outputs are added entry by entry. The least entry is a choice at each node of
their axes for which the costs up to the outputs have the least sum. If no entry is below the sum of
the greatest ones then all are equal, and the last one is taken.
-/

namespace TensorToolchain.LayoutChoice

open List Tensor
open Tensor (Fits Shows)

variable {a : ℕ → ℕ}

lemma exactScale_sum (xs : List ℚ) : exactScale.sum xs = xs.sum := sum_eq_foldl.symm

lemma exactScale_greater (a b : ℚ) : (if exactScale.less a b then b else a) = max a b := by
  simp only [exactScale_less, max_def_lt]

lemma greatestOf?_eq_some {xs : List ℚ} (h : xs ≠ []) : ∃ x, exactScale.greatestOf? xs = some x ∧ ∀ y ∈ xs, y ≤ x := by
  obtain ⟨d, l, rfl⟩ := exists_cons_of_ne_nil h
  simp only [CostScale.greatestOf?, exactScale_greater]
  exact ⟨_, rfl, (max?_eq_some_iff.1 max?_cons').2⟩

/-- The better of the entry found so far and another one. -/
def better (s : ℚ × Option ℕ) (e : ℚ × ℕ) : ℚ × Option ℕ := if exactScale.less e.1 s.1 then (e.1, some e.2) else s

lemma leastEntry_spec (bound : ℚ) (totals : List ℚ) :
    (leastEntry exactScale bound totals = none ∧ ∀ x ∈ totals, bound ≤ x) ∨
      ∃ e < totals.length, leastEntry exactScale bound totals = some e ∧ ∀ x ∈ totals, totals.getD e 0 ≤ x := by
  change ((totals.zipIdx.foldl better (bound, none)).2 = none ∧ _) ∨ ∃ e < totals.length,
    (totals.zipIdx.foldl better (bound, none)).2 = some e ∧ _
  suffices h : (∀ x ∈ totals, (totals.zipIdx.foldl better (bound, none)).1 ≤ x) ∧
      (totals.zipIdx.foldl better (bound, none) = (bound, none) ∨ ∃ e < totals.length,
        totals.zipIdx.foldl better (bound, none) = (totals.getD e 0, some e)) by
    obtain ⟨hle, h | ⟨e, he, h⟩⟩ := h
    · rw [h] at hle ⊢
      exact .inl ⟨rfl, hle⟩
    · rw [h] at hle ⊢
      exact .inr ⟨e, he, rfl, hle⟩
  induction totals using reverseRecOn with
  | nil => exact ⟨nofun, .inl rfl⟩
  | append_singleton totals y ih =>
    rw [zipIdx_append, foldl_append, zipIdx_singleton, foldl_cons, foldl_nil, zero_add]
    set s := totals.zipIdx.foldl better _
    obtain ⟨hle, hs⟩ := ih
    by_cases hls : exactScale.less y s.1
    · have hnew : better s (y, totals.length) = (y, some totals.length) := if_pos hls
      rw [hnew]
      refine ⟨fun x hx => ?_, .inr ⟨totals.length, by simp, by simp⟩⟩
      rcases mem_append.1 hx with hx | hx
      · exact (exactScale_less.1 hls).le.trans (hle x hx)
      · exact (mem_singleton.1 hx).ge
    · have hold : better s (y, totals.length) = s := if_neg hls
      rw [hold]
      refine ⟨fun x hx => ?_, hs.imp_right ?_⟩
      · rcases mem_append.1 hx with hx | hx
        · exact hle x hx
        · rw [mem_singleton.1 hx]
          exact not_lt.1 fun h => hls (exactScale_less.2 h)
      · rintro ⟨e, he, hs⟩
        refine ⟨e, ?_, by rw [hs, getD_append _ _ _ _ he]⟩
        rw [length_append]
        omega

/-! ### The choices that an entry stands for -/

variable {size : ℕ → ℕ} {outputs more : List ℕ} {f : ℕ → (ℕ → ℕ) → ℚ} {tables : List (Aligned ℚ)}

lemma fdiv_fmod {shape index : List ℕ} (hin : Tensor.Inside index shape) {axis : ℕ} (hax : axis < shape.length) {e : ℤ}
    (he : e ≡ offset shape index [ZMOD volume shape]) :
    ((e.fdiv (volume (shape.drop (axis + 1)) : ℕ)).fmod (shape.getD axis 0 : ℕ)).toNat = index.getD axis 0 := by
  set stride := volume _ with hst
  set n := shape.getD axis 0
  have hpos : 0 < stride := Nat.zero_lt_of_lt (offset_lt (forall₂_drop _ hin))
  obtain ⟨q, hq⟩ := (modEq_stride hax he).symm.dvd
  have heq : e = offset shape index + (stride : ℤ) * (n * q) := by
    rw [← mul_assoc, ← Nat.cast_mul, ← hq, add_sub_cancel]
  rw [Int.fdiv_eq_ediv_of_nonneg _ (Int.natCast_nonneg _), Int.fmod_eq_emod_of_nonneg _ (Int.natCast_nonneg _), heq,
    Int.add_mul_ediv_left _ _ (by exact_mod_cast hpos.ne'), Int.add_mul_emod_self_left,
    ← Int.natCast_ediv, ← Int.natCast_emod, Int.toNat_natCast, offset_div_mod hin hax]

lemma map_zip_append {g : Aligned ℚ → ℕ} (h : List.Forall₂ (fun o t => g t = a o) outputs tables) :
    (tables.zip (outputs ++ more)).map (fun e => (e.2, g e.1)) = outputs.map fun o => (o, a o) := by
  induction h with
  | nil => simp
  | @cons o t outputs tables ht _ ih => rw [cons_append, zip_cons_cons, map_cons, ih, map_cons, ht]

/-- The entry of least total below a bound, the last one if none is below it. -/
def entryBelow (bound : ℚ) (volume : ℕ) (tables : List (Aligned ℚ)) : ℤ :=
  ((leastEntry exactScale bound ((List.range volume).map fun e =>
    exactScale.sum (tables.map (·.states.data.getD e default)))).map Int.ofNat).getD (-1)

section

variable {nodes : List ℕ} (hall : List.Forall₂ (fun o => AlignedTo size nodes o (f o)) outputs tables)

include hall

lemma map_getD_offset (ha : Fits size nodes a) : tables.map (fun t => t.states.data.getD
        (offset (nodes.map size) (nodes.map a)) default) = outputs.map (f · a) := by
  induction hall with
  | nil => rfl
  | cons ht _ ih => rw [map_cons, map_cons, ih, ht.getD_offset ha]

lemma exists_greatest (hpos : 0 < volume (nodes.map size)) :
    ∃ greatest, tables.mapM (fun t => orFail .badValue (exactScale.greatestOf? t.states.data.toList)) = .ok greatest ∧
      ∀ a, Fits size nodes a → (outputs.map (f · a)).sum ≤ greatest.sum := by
  induction hall with
  | nil => exact ⟨[], rfl, fun _ _ => le_rfl⟩
  | @cons o t outputs tables ht _ ih =>
    have hsz : t.states.data.size = volume (nodes.map size) := by rw [ht.shows.wellShaped, ht.shows.shape_eq]
    have hne : t.states.data.toList ≠ [] := by
      rw [← length_pos_iff, Array.length_toList, hsz]
      exact hpos
    obtain ⟨m, hm, hle⟩ := greatestOf?_eq_some hne
    obtain ⟨greatest, hrun, hsum⟩ := ih
    refine ⟨m :: greatest, ?_, fun a ha => ?_⟩
    · rw [mapM_cons, hm, orFail_some, hrun]
      rfl
    · rw [map_cons]
      refine add_le_add (hle _ ?_) (hsum a ha)
      have hlt := offset_lt ha.inside
      rw [← hsz] at hlt
      rw [← ht.getD_offset ha, Array.getD_eq_getD_getElem?, Array.getElem?_eq_getElem hlt]
      exact Array.getElem_mem_toList hlt

lemma exists_least (hnd : nodes.Nodup) (hpos : 0 < volume (nodes.map size))
    {bound : ℚ} (hbd : ∀ a, Fits size nodes a → (outputs.map (f · a)).sum ≤ bound) :
    ∃ a, Fits size nodes a ∧ entryBelow bound (volume (nodes.map size)) tables ≡
        offset (nodes.map size) (nodes.map a) [ZMOD volume (nodes.map size)] ∧
      ∀ b, Fits size nodes b → (outputs.map (f · a)).sum ≤ (outputs.map (f · b)).sum := by
  set V := volume _ with hV
  rw [entryBelow]
  set totals := (range V).map fun e => exactScale.sum _ with htl
  -- an entry is a choice at each node, and its total the sum
  have hat : ∀ e < V, ∃ a, Fits size nodes a ∧ offset (nodes.map size) (nodes.map a) = e := fun e he => by
    have hin := inside_indexAt he
    refine ⟨_, fits_choicesAt hnd hin, ?_⟩
    rw [map_choicesAt hnd (by simpa using hin.length_eq), offset_indexAt he]
  have hto : ∀ a, Fits size nodes a →
      totals.getD (offset (nodes.map size) (nodes.map a)) 0 = (outputs.map (f · a)).sum :=
    fun a ha => by
    have hlt := offset_lt ha.inside
    rw [getD_eq_getElem _ _ (by simpa [htl] using hlt), getElem_map,
      getElem_range, exactScale_sum, map_getD_offset hall ha]
  have hmem : ∀ a, Fits size nodes a → (outputs.map (f · a)).sum ∈ totals := fun a ha => by
    have hlt : offset (nodes.map size) (nodes.map a) < totals.length := by simpa [htl] using offset_lt ha.inside
    rw [← hto a ha, getD_eq_getElem _ _ hlt]
    exact getElem_mem hlt
  rcases leastEntry_spec bound totals with ⟨hno, hle⟩ | ⟨e, he, hsm, hle⟩
  · obtain ⟨a, ha, hof⟩ := hat (V - 1) (by omega)
    refine ⟨a, ha, ?_, fun b hb => (hbd a ha).trans (hle _ (hmem b hb))⟩
    rw [hno, hof]
    refine Int.modEq_iff_dvd.2 ⟨1, ?_⟩
    change ((V - 1 : ℕ) : ℤ) - (-1) = V * 1
    omega
  · obtain ⟨a, ha, rfl⟩ := hat e (by simpa [htl] using he)
    refine ⟨a, ha, ?_, fun b hb => ?_⟩
    · rw [hsm]
      exact Int.ModEq.refl _
    · rw [← hto a ha]
      exact hle _ (hmem b hb)

end

/-- The choices at the outputs and at the nodes that their tables need have the least sum. -/
lemma chooseOutputs_eq_ok (hne : outputs ≠ []) (hndp : (outputs ++ more).Nodup)
    (hpos : ∀ k ∈ outputs ++ more, 0 < size k)
    (hall : List.Forall₂ (fun o => AlignedTo size (outputs ++ more) o (f o)) outputs tables) :
    ∃ chosen a, chooseOutputs exactScale tables (outputs ++ more) = .ok chosen ∧ Fits size (outputs ++ more) a ∧
      (∀ k, chosen.get? k = if k ∈ outputs ++ more then some (a k) else none) ∧ ∀ b, Fits size (outputs ++ more) b →
        (outputs.map (f · a)).sum ≤ (outputs.map (f · b)).sum := by
  set nodes := outputs ++ more with hnd
  have hvl : 0 < volume (nodes.map size) := volume_pos fun n hn => by
    obtain ⟨k, hk, rfl⟩ := mem_map.1 hn
    exact hpos k hk
  obtain ⟨greatest, hgr, hbd⟩ := exists_greatest hall hvl
  obtain ⟨a, ha, hen, hls⟩ := exists_least hall hndp hvl hbd
  set entry := entryBelow greatest.sum _ tables with heq
  refine ⟨.ofList _, a, ?_, ha, Keyed.get?_ofList_map nodes a, hls⟩
  obtain ⟨first, hfst, hsh⟩ : ∃ first, tables.head? = some first ∧ ∃ g, first.states.Shows size nodes g := by
    cases hall with
    | nil => exact absurd rfl hne
    | cons ht _ => exact ⟨_, rfl, _, ht.shows⟩
  obtain ⟨g, hsh⟩ := hsh
  have hlen : tables.length = outputs.length := hall.length_eq.symm
  have hat : (tables.zip nodes).map (fun e => (e.2, (e.1.choiceAt entry).toNat)) = outputs.map fun o => (o, a o) :=
    map_zip_append (g := fun t => (t.choiceAt entry).toNat) (hall.imp fun o t ht => ht.choice_eq a ha entry hen)
  have hatn : ((range nodes.length).drop tables.length).map (fun k => (nodes.getD k 0,
      ((entry.fdiv (volume ((nodes.map size).drop (k + 1)))).fmod
        ((nodes.map size).getD k 0)).toNat)) = more.map fun k => (k, a k) := by
    refine ext_getElem (by simp [hnd, hlen]) fun k _ hk => ?_
    have hk : k < more.length := by simpa using hk
    have hlt : outputs.length + k < nodes.length := by rw [length_append]; omega
    have hno : nodes.getD (outputs.length + k) 0 = more[k] := by simp [hnd, hk]
    rw [getElem_map, getElem_drop, getElem_range, hlen, fdiv_fmod ha.inside (by simpa using hlt) hen]
    simp [hnd, hk]
  rw [chooseOutputs, hfst, orFail_some, ok_bind, hgr, ok_bind]
  dsimp only
  rw [hsh.wellShaped, hsh.shape_eq, exactScale_sum greatest, ← entryBelow]
  change Except.ok (Keyed.ofList ((tables.zip nodes).map (fun e => (e.2, (e.1.choiceAt entry).toNat)) ++ _)) = _
  rw [hat, hatn, ← map_append]

/-! ### The least choice by stages

The choice at the outputs has the least sum of the costs up to them, and the choices that are traced
back from it bring the total cost down to this sum. No choice has a total cost below it.
-/

variable {p : Setting ℚ} {stages : Keyed ℕ (Stage ℚ)} {k : ℕ}

section

variable (hp : p.Proper) (hst : p.Stageable)
include hp hst

namespace Setting

lemma forall_keys_of_outsOf {P : ℕ → Prop} (h : ∀ k ∈ p.keys, (∀ j ∈ p.outsOf k, P j) → P k) : ∀ k ∈ p.keys, P k := by
  -- the induction is on the distance from a bound for all keys
  suffices hbd : ∀ n, ∀ k ∈ p.keys, p.keys.sum ≤ k + n → P k from fun k hk => hbd p.keys.sum k hk (Nat.le_add_left _ _)
  intro n
  induction n using Nat.strongRecOn with
  | _ n ih =>
    intro k hk hle
    refine h k hk fun j hj => ?_
    have hin := (hst.mem_outsOf hp).1 hj
    have hjk := mem_keys_of_mem_inputsOf hin
    have hlt := hp.earlier j hjk k hin
    have hjle := le_sum_of_mem hjk
    exact ih (n - (j - k)) (by omega) j hjk (by omega)

lemma outputs_ne_nil (hne : p.keys ≠ []) : p.outputs ≠ [] := by
  intro hnil
  obtain ⟨k, hk⟩ := exists_mem_of_ne_nil _ hne
  refine forall_keys_of_outsOf hp hst (P := fun _ => False) (fun k hk hout => ?_) k hk
  have hmem := (mem_outputs hp hst).2 ⟨hk, eq_nil_iff_forall_not_mem.2 hout⟩
  rw [hnil] at hmem
  exact not_mem_nil hmem

end Setting

open Setting

namespace Trace

variable {start : Keyed ℕ ℕ} {t : Trace}

lemma Traced.mem_visited (ht : Traced p stages start t) (hqu : t.queue = []) : ∀ k ∈ p.keys, k ∈ t.visited := by
  have hno : ∀ k, k ∈ t.visited ∨ k ∈ t.queue → k ∈ t.visited := fun k hk =>
    hk.resolve_right (by rw [hqu]; exact not_mem_nil)
  refine forall_keys_of_outsOf hp hst fun k hk hout => ?_
  by_cases hnil : p.outsOf k = []
  · exact hno k (ht.outputs k ((mem_outputs hp hst).2 ⟨hk, hnil⟩))
  · obtain ⟨j, hj⟩ := exists_mem_of_ne_nil _ hnil
    refine hno k (ht.inner j (hout j hj) k (mem_inner.2 ⟨(hst.mem_outsOf hp).1 hj, ?_⟩))
    exact hp.not_boundary k hk

lemma traced_start (hks : ∀ k, k ∈ start.keys ↔ ∃ o ∈ p.outputs, Holds stages o k)
    (hft : ∀ k ∈ start.keys, chosenAt start k < p.choices k) :
    Traced p stages start { queue := p.outputs, chosen := start } := by
  refine ⟨fun i hi => ?_, fun i hi x hx => (hks x).2 ⟨i, ?_, hx⟩, fun x hx => .inl ?_, nofun,
    nofun, nofun, nofun, fun o ho => .inr ho, hft, fun _ _ _ _ => rfl⟩
  · exact ((mem_outputs hp hst).1 (hi.resolve_left not_mem_nil)).1
  · exact hi.resolve_left not_mem_nil
  · exact (hks x).1 hx

end Trace

lemma Staged.exists_chooseOutputs (hs : Staged p stages) (hne : p.keys ≠ []) :
    ∃ tables nodes first start, align p.choices stages p.outputs = .ok (tables, nodes) ∧
      tables.head? = some first ∧ chooseOutputs exactScale tables nodes = .ok start ∧
      (∀ k, k ∈ start.keys ↔ ∃ o ∈ p.outputs, Holds stages o k) ∧ (∀ k ∈ start.keys, chosenAt start k < p.choices k) ∧
      ∀ b, p.Assigns b → (p.outputs.map (costUpTo stages · (chosenAt start))).sum ≤
        (p.outputs.map (costUpTo stages · b)).sum := by
  have hks : ∀ o ∈ p.outputs, o ∈ p.keys := fun o ho => ((mem_outputs hp hst).1 ho).1
  have htbs : ∀ o ∈ p.outputs, HasTable p.choices stages o := fun o ho => by
    obtain ⟨t, hget, hstg⟩ := hs.stage o (hks o ho)
    refine hstg.hasTable hp (hks o ho) hget fun hmem => ?_
    exact (hs.needed o (hks o ho) o (neededBy_eq hget ▸ hmem)).2.false
  obtain ⟨tables, hal, hall⟩ := align_eq_ok hp.nodup_outputs htbs
  obtain ⟨more, hmr⟩ := exists_alignedNodes p.outputs _
  have hnd := nodup_alignedNodes hp.nodup_outputs (p.outputs.map (neededBy stages))
  have hmem : ∀ k, k ∈ p.outputs ++ more ↔ ∃ o ∈ p.outputs, Holds stages o k := fun k => by
    rw [← hmr, mem_alignedNodes]
    rfl
  rw [hmr] at hal hall hnd
  have hnds : ∀ k ∈ p.outputs ++ more, k ∈ p.keys := fun k hk => by
    obtain ⟨o, ho, rfl | hk⟩ := (hmem k).1 hk
    · exact hks k ho
    · exact (hs.needed o (hks o ho) k hk).1
  obtain ⟨start, a, hch, hft, hget, hls⟩ := chooseOutputs_eq_ok
    (outputs_ne_nil hp hst hne) hnd (fun k hk => hp.choices_pos (hnds k hk)) hall
  obtain ⟨first, hfst⟩ : ∃ first, tables.head? = some first := by
    cases htbs : tables with
    | nil =>
      have hlen := hall.length_eq
      rw [htbs] at hlen
      exact absurd (length_eq_zero_iff.1 hlen) (outputs_ne_nil hp hst hne)
    | cons first rest => exact ⟨first, rfl⟩
  have hstr : ∀ k, k ∈ start.keys ↔ k ∈ p.outputs ++ more := fun k => by
    rw [Keyed.mem_keys, hget]
    split_ifs with hk
    · exact ⟨fun _ => hk, fun _ => rfl⟩
    · exact ⟨nofun, (absurd · hk)⟩
  have hat : ∀ k ∈ p.outputs ++ more, chosenAt start k = a k := fun k hk => by
    rw [chosenAt, hget, if_pos hk, Option.getD_some]
  refine ⟨tables, _, first, start, hal, hfst, hch, fun k => (hstr k).trans (hmem k), fun k hk => ?_, fun b hb => ?_⟩
  · rw [hat k ((hstr k).1 hk)]
    exact hft k ((hstr k).1 hk)
  · have hsm : p.outputs.map (costUpTo stages · (chosenAt start)) =
        p.outputs.map (costUpTo stages · a) := map_congr_left fun o ho =>
      costUpTo_congr fun k hk => hat k ((hmem k).2 ⟨o, ho, mem_cons.1 hk⟩)
    rw [hsm]
    exact hls b fun k hk => (hb k (hnds k hk)).1

end

namespace Setting

/-- Stages find a choice at every key, and no other choice has a lower total cost. -/
def LeastByStages (p : Setting ℚ) : Prop :=
  ∃ found, solveStages exactScale p none = .ok found ∧ (∀ k ∈ p.keys, k ∈ found.chosen.keys) ∧
    p.Assigns (chosenAt found.chosen) ∧ ∀ b, p.Assigns b → p.total (chosenAt found.chosen) ≤ p.total b

/-- The choice by stages has the least total cost if the graph is stageable. -/
theorem leastByStages_of_stageable (hp : p.Proper) (hst : p.Stageable) (hne : p.keys ≠ [])
    (hout : p.outputs.length ≤ maxOutputs) : p.LeastByStages := by
  obtain ⟨s, n, hbuild, hs⟩ := buildStages_eq_ok hp hst
  obtain ⟨tables, nodes, first, start, halign, hfirst, hchoose, hkeys, hfits, hleast⟩ :=
    hs.exists_chooseOutputs hp hst hne
  obtain ⟨t, hrun, ht, hqueue⟩ := Trace.run_eq_ok hs hp hst (visitBound p p.outputs.length)
    (Trace.traced_start hp hst hkeys hfits) (Trace.visitsLeft_lt_visitBound hp p.outputs)
  have hvisited := ht.mem_visited hp hst hqueue
  have hchosen : ∀ k ∈ p.keys, k ∈ t.chosen.keys := fun k hk => ht.held k (.inl (hvisited k hk)) k (.inl rfl)
  refine ⟨⟨s.stages, n + first.states.data.size * p.outputs.length, t.chosen⟩, ?_, hchosen,
    fun k hk => ⟨ht.fits k (hchosen k hk), ht.tie k (hvisited k hk)⟩, fun b hb => ?_⟩
  · have houtputs : (p.outs.entries.filter fun e => e.2.isEmpty).map Prod.fst = p.outputs := rfl
    have hcount : ∀ m, countStates none n m = .ok (n + m) := fun _ => rfl
    rw [solveStages, hbuild, ok_bind]
    dsimp only
    rw [houtputs, if_neg (not_lt.2 hout), halign, ok_bind, hfirst, orFail_some, ok_bind, hcount,
      ok_bind, hchoose, ok_bind, hrun]
    rfl
  · have hsame : p.outputs.map (costUpTo s.stages · (chosenAt t.chosen)) =
        p.outputs.map (costUpTo s.stages · (chosenAt start)) := List.map_congr_left fun o ho =>
      costUpTo_congr fun k hk => by rw [chosenAt, ht.start_eq o ho k (List.mem_cons.1 hk), chosenAt]
    calc p.total (chosenAt t.chosen)
      _ = (p.outputs.map (costUpTo s.stages · (chosenAt t.chosen))).sum :=
        (Staged.sum_outputs_eq_total hp hst fun i hi => ht.least i (hvisited i hi)).symm
      _ = (p.outputs.map (costUpTo s.stages · (chosenAt start))).sum := by rw [hsame]
      _ ≤ (p.outputs.map (costUpTo s.stages · b)).sum := hleast b hb
      _ ≤ p.total b := hs.sum_outputs_le_total hp hst hb

/-- Operators on the data, of which the convolutions are tuned. -/
def ofOperators (ops : List (String × List ℕ)) (inputs : Links) (costs : List (List ℚ))
    (transforms : List ((ℕ × ℕ) × CostTable ℚ)) : Setting ℚ where
  graph := {
    nodes := { name := some "data" } :: ops.map fun o => { op := some o.1, inputs := o.2 }
    targets := ["conv2d"]
    inputNames := ["data"] }
  inputs
  outs := Links.reversed inputs
  costs := (costs.getD · [])
  transforms := .ofList transforms

/-- Two convolutions of one tensor, the sum of which goes into two others. -/
def twoHeads : Setting ℚ :=
  ofOperators [("conv2d", [0]), ("conv2d", [1]), ("conv2d", [1]), ("add", [2, 3]), ("conv2d", [4]), ("conv2d", [4])]
    ⟨[(1, [0]), (2, [1]), (3, [1]), (4, [2, 3]), (5, [4]), (6, [4])]⟩
    [[], [1 / 2, 1], [0, 3], [2, 0], [0, 0], [1, 0], [0, 1 / 3]]
    [((1, 2), [[0, 2], [1, 0]]), ((1, 3), [[0, 1], [3, 0]]), ((3, 2), [[0, 1], [1, 0]]),
      ((4, 5), [[0, 4], [1, 0]]), ((4, 6), [[0, 2], [1, 0]])]

theorem twoHeads_leastByStages : twoHeads.Proper ∧ twoHeads.Stageable ∧ twoHeads.keys ≠ [] ∧
    twoHeads.outputs.length ≤ maxOutputs ∧ twoHeads.LeastByStages := by
  have hp : twoHeads.Proper := by decide +kernel
  have hst : twoHeads.Stageable := by decide +kernel
  have hne : twoHeads.keys ≠ [] := by decide +kernel
  have hout : twoHeads.outputs.length ≤ maxOutputs := by decide +kernel
  exact ⟨hp, hst, hne, hout, leastByStages_of_stageable hp hst hne hout⟩

/-! ### Graphs that are not stageable -/

/-- The sum of a tensor and itself, after another operator, which lists one input only. -/
def loneJoin : Setting ℚ := ofOperators [("conv2d", [0]), ("relu", [1]), ("add", [2, 2]), ("conv2d", [3])]
    ⟨[(1, [0]), (3, [1]), (4, [3])]⟩ [[], [0, 2], [], [0, 0], [0]] [((3, 4), [[1], [0]])]

/-- The sum of a tensor and itself, which lists its input twice. -/
def doubled : Setting ℚ := ofOperators [("conv2d", [0]), ("add", [1, 1])] ⟨[(1, [0]), (2, [1, 1])]⟩ [[], [0, 1], [0, 0]]
    [((1, 1), [[0, 0], [0, 0]])]

/-- A convolution that takes data and weights from one tensor, and lists one input. -/
def ownWeights : Setting ℚ := ofOperators [("conv2d", [0]), ("relu", [1]), ("conv2d", [2, 2])] ⟨[(1, [0]), (3, [1])]⟩
    [[], [1, 0], [], [0, 1]] [((1, 3), [[0, 0], [0, 0]])]

/-- A sum the first input of which is used again after it. -/
def usedLater : Setting ℚ := ofOperators [("conv2d", [0]), ("conv2d", [1]), ("add", [1, 2]), ("conv2d", [1])]
    ⟨[(1, [0]), (2, [1]), (3, [1, 2]), (4, [1])]⟩ [[], [1, 2], [1], [0, 0], [0]]
    [((1, 2), [[0], [0]]), ((2, 1), [[0, 0]]), ((1, 4), [[2], [0]])]

/-- A sum one input of which has led to an output before. -/
def earlyOutput : Setting ℚ := ofOperators [("conv2d", [0]), ("conv2d", [1]), ("conv2d", [1]), ("add", [2, 1])]
    ⟨[(1, [0]), (2, [1]), (3, [1]), (4, [2, 1])]⟩ [[], [0, 0], [1], [2], [0]]
    [((1, 2), [[0], [1]]), ((1, 3), [[0], [0]])]

/-- The links are those of the graph, and yet stages find no least choice. -/
def Missed (p : Setting ℚ) : Prop :=
  (p.Proper ∧ p.graph.inputLinks = .ok p.inputs ∧ p.outputs.length ≤ maxOutputs) ∧ ¬ p.LeastByStages

lemma missed_of_lt {b : ℕ → ℕ} (hb : p.Assigns b)
    (hp : p.Proper ∧ p.graph.inputLinks = .ok p.inputs ∧ p.outputs.length ≤ maxOutputs)
    (hrun : (solveStages exactScale p none).map
      (fun found => decide (p.total b < p.total (chosenAt found.chosen))) = .ok true) :
    p.Missed := by
  refine ⟨hp, ?_⟩
  rintro ⟨found, hfn, -, -, hls⟩
  rw [hfn] at hrun
  exact absurd (hls b hb) (not_le.2 (of_decide_eq_true (Except.ok.inj hrun)))

lemma missed_of_fails (hp : p.Proper ∧ p.graph.inputLinks = .ok p.inputs ∧ p.outputs.length ≤ maxOutputs)
    (hrun : (solveStages exactScale p none).toOption.isNone) : p.Missed := by
  refine ⟨hp, ?_⟩
  rintro ⟨found, hfn, -⟩
  rw [hfn] at hrun
  cases hrun

-- Sorting is by well-founded recursion, which does not evaluate; keys in order need none.
lemma mergeSort_keys (h : p.inputs.keys.Pairwise (· ≤ ·)) : p.inputs.keys.mergeSort = p.inputs.keys :=
  mergeSort_of_pairwise (by simpa using h)

/-- Stages may miss the least choice, or fail, if a join lists one input or the same input twice,
if a target takes two inputs, if the first input of a join is used past it, and if an output comes
before a join that closes a node on which it depends. -/
theorem unstageable_missed : loneJoin.Missed ∧ doubled.Missed ∧ ownWeights.Missed ∧
    usedLater.Missed ∧ earlyOutput.Missed := by
  refine ⟨missed_of_lt (b := fun _ => 0) (by decide +kernel) (by decide +kernel) ?_,
    missed_of_fails (by decide +kernel) ?_,
    missed_of_lt (b := fun k => if k = 1 then 1 else 0) (by decide +kernel) (by decide +kernel) ?_,
    missed_of_lt (b := fun k => if k = 1 ∨ k = 3 then 1 else 0) (by decide +kernel) (by decide +kernel) ?_,
    missed_of_lt (b := fun _ => 0) (by decide +kernel) (by decide +kernel) ?_⟩
  all_goals
    rw [solveStages, buildStages, mergeSort_keys (by decide)]
    decide +kernel

end Setting

end TensorToolchain.LayoutChoice
