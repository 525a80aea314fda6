import TensorToolchain.Proofs.LayoutChoice.AlignedTables
import TensorToolchain.Proofs.LayoutChoice.AnchorGraph

/-!
# The full table of a stage

The full table of a stage holds, for every choice at the node and at all that its inputs depend on,
the cost of the node itself and the least cost up to each of its inputs that no earlier stage has
counted.
-/

namespace TensorToolchain.LayoutChoice

/-! ### Graphs that are solved in stages

Layouts are chosen at the keys of the links. At a target an input is brought to the layout of the
target, and at a join every input but the first is brought to the layout of the first, which the
join has.

Stages find a choice of least cost if the graph is stageable. A join stands for its first input, so
that nothing else may depend on this input past the join. And where all that depends on a node past
a join does so through the join, no output may depend on the node before.
-/

open List

/-! ### Paths along links -/

namespace Links

/-- Whether links lead from a node to another in less than so many steps. -/
def leadsWithin (links : Links) : ℕ → ℕ → ℕ → Bool
  | 0, _, _ => false
  | fuel + 1, x, y => x == y || ((links.get? y).getD []).any (links.leadsWithin fuel x)

def leads (links : Links) (x y : ℕ) : Bool := links.leadsWithin (y + 1) x y

variable {links : Links}

lemma leadsWithin_eq (her : ∀ k, ∀ i ∈ (links.get? k).getD [], i < k) (x y : ℕ) {fuel : ℕ}
    (hfl : y < fuel) : links.leadsWithin fuel x y = links.leads x y := by
  induction y using Nat.strongRecOn generalizing fuel with
  | _ y ih =>
    obtain ⟨n, rfl⟩ := Nat.exists_eq_succ_of_ne_zero (ne_zero_of_lt hfl)
    rw [leads, leadsWithin]
    congr 1
    refine Bool.eq_iff_iff.2 ?_
    rw [any_eq_true, any_eq_true]
    refine exists_congr fun i => and_congr_right fun hi => ?_
    have hiy := her y i hi
    rw [ih i hiy (by omega), ih i hiy (by omega)]

/-- Links lead to a node from itself and from all that leads to its inputs. -/
lemma leads_iff (her : ∀ k, ∀ i ∈ (links.get? k).getD [], i < k) {x y : ℕ} :
    links.leads x y ↔ x = y ∨ ∃ i ∈ (links.get? y).getD [], links.leads x i := by
  rw [leads, leadsWithin, Bool.or_eq_true, beq_iff_eq, any_eq_true]
  refine or_congr_right (exists_congr fun i => and_congr_right fun hi => ?_)
  rw [leadsWithin_eq her x i (her y i hi)]

end Links

namespace Setting

variable (p : Setting ℚ)

/-! ### What a choice costs -/

def keys : List ℕ := p.inputs.keys

def inputsOf (k : ℕ) : List ℕ := (p.inputs.get? k).getD []

def inner (k : ℕ) : List ℕ := p.inputs.inner p.graph k

/-- The node whose layout a key has: the first of its inputs if it joins several, and otherwise the
key itself. -/
def meets (k : ℕ) : ℕ := if p.graph.isTarget k then k else (p.inputsOf k).headD k

/-- The cost of the change of layout between the choices at two nodes. -/
def changeCost (a : ℕ → ℕ) (i k : ℕ) : ℚ := ((p.transforms.get? (i, k)).getD []).entry (a i) (a k)

/-- The cost of a key: that of the choice at a target, and those of the changes of layout of its
inputs. -/
def keyCost (a : ℕ → ℕ) (k : ℕ) : ℚ :=
  (if p.graph.isTarget k then (p.costs k).getD (a k) 0 else 0) +
    (((p.inner k).filter (· ≠ p.meets k)).map (p.changeCost a · (p.meets k))).sum

def total (a : ℕ → ℕ) : ℚ := (p.keys.map (p.keyCost a)).sum

/-- A choice at every key, which at a join is that of the first input. -/
def Assigns (a : ℕ → ℕ) : Prop := ∀ k ∈ p.keys, a k < p.choices k ∧ a k = a (p.meets k)

instance (a : ℕ → ℕ) : Decidable (p.Assigns a) :=
  inferInstanceAs (Decidable (∀ k ∈ p.keys, a k < p.choices k ∧ a k = a (p.meets k)))

/-! ### Graphs with links and costs -/

/-- The inputs of the keys come before them, and those that are no boundary nodes are keys. A
target has one input, and a join has some, none of which is a boundary node. There is a choice at
every key, a join has those of its first input, and a table is given for every change of layout. -/
@[mk_iff]
structure Proper : Prop where
  keys_nodup : p.keys.Nodup
  outs_eq : p.outs = Links.reversed p.inputs
  not_boundary : ∀ k ∈ p.keys, p.graph.isBoundary k = false
  earlier : ∀ k ∈ p.keys, ∀ i ∈ p.inputsOf k, i < k
  inside : ∀ k ∈ p.keys, ∀ i ∈ p.inputsOf k, p.graph.isBoundary i = false → i ∈ p.keys
  target_inputs : ∀ k ∈ p.keys, p.graph.isTarget k = true → (p.inputsOf k).length = 1
  join_inputs : ∀ k ∈ p.keys, p.graph.isTarget k = false → p.graph.joins k = true ∧
    p.inputsOf k ≠ [] ∧ ∀ i ∈ p.inputsOf k, p.graph.isBoundary i = false
  costs_ne_nil : ∀ k ∈ p.keys, p.costs k ≠ []
  choices_meets : ∀ k ∈ p.keys, p.choices (p.meets k) = p.choices k
  transforms : ∀ k ∈ p.keys, ∀ i ∈ p.inner k, i ≠ p.meets k →
    ∃ t ∈ p.transforms.get? (i, p.meets k), t.Shaped (p.choices i) (p.choices k)

instance : Decidable p.Proper := decidable_of_iff _ p.proper_iff.symm

/-- All that depends on a node past a key does so through the key: what an earlier key that the node
leads to is listed by, from this key on, is this key alone. -/
def Closes (k x : ℕ) : Prop :=
  ∀ i ∈ p.keys, i < k → p.inputs.leads x i = true → ∀ j ∈ p.inputs.consumers i, k ≤ j → j = k

instance (k x : ℕ) : Decidable (p.Closes k x) :=
  inferInstanceAs (Decidable (∀ i ∈ p.keys, i < k → p.inputs.leads x i = true →
    ∀ j ∈ p.inputs.consumers i, k ≤ j → j = k))

/-- No target brings in data twice, and every join has at least two inputs, all of them different.
A join closes its first input. No output that comes before a join depends on a node that the join
closes. -/
@[mk_iff]
structure Stageable : Prop where
  not_joins : ∀ k ∈ p.keys, p.graph.isTarget k = true → p.graph.joins k = false
  several : ∀ k ∈ p.keys, p.graph.isTarget k = false → 2 ≤ (p.inputsOf k).length
  inputs_nodup : ∀ k ∈ p.keys, (p.inputsOf k).Nodup
  closes_first : ∀ k ∈ p.keys, p.graph.isTarget k = false → p.Closes k (p.meets k)
  outputs_after : ∀ k ∈ p.keys, p.graph.isTarget k = false → ∀ x ∈ p.keys, x ≠ k →
    p.inputs.leads x k = true → p.Closes k x →
    ∀ o ∈ p.keys, o < k → p.inputs.consumers o = [] → p.inputs.leads x o = false

instance : Decidable p.Stageable := decidable_of_iff _ p.stageable_iff.symm

variable {p} {i k x : ℕ}

lemma mem_keys_of_mem_inputsOf (h : i ∈ p.inputsOf k) : k ∈ p.keys := by
  by_contra hk
  rw [inputsOf, Keyed.get?_eq_none.2 hk] at h
  exact not_mem_nil h

lemma mem_inner : i ∈ p.inner k ↔ i ∈ p.inputsOf k ∧ p.graph.isBoundary i = false := Links.mem_inner

lemma meets_of_isTarget (h : p.graph.isTarget k) : p.meets k = k := if_pos h

namespace Proper

variable (h : p.Proper)
include h

lemma earlier_links (k : ℕ) : ∀ i ∈ (p.inputs.get? k).getD [], i < k :=
  fun i hi => h.earlier k (mem_keys_of_mem_inputsOf hi) i hi

lemma leads_iff : p.inputs.leads x k ↔ x = k ∨ ∃ i ∈ p.inputsOf k, p.inputs.leads x i := Links.leads_iff h.earlier_links

lemma lt_of_mem_inner (hi : i ∈ p.inner k) : i < k := h.earlier_links k i (mem_inner.1 hi).1

lemma mem_keys_of_mem_inner (hi : i ∈ p.inner k) : i ∈ p.keys := by
  obtain ⟨hi, hb⟩ := mem_inner.1 hi
  exact h.inside k (mem_keys_of_mem_inputsOf hi) i hi hb

lemma choices_pos (hk : k ∈ p.keys) : 0 < p.choices k := length_pos_iff.2 (h.costs_ne_nil k hk)

lemma mem_consumers : k ∈ p.inputs.consumers i ↔ i ∈ p.inputsOf k := Links.mem_consumers h.keys_nodup

lemma inputsOf_join (hk : k ∈ p.keys) (hjn : p.graph.isTarget k = false) :
    p.inner k = p.inputsOf k ∧ ∃ rest, p.inputsOf k = p.meets k :: rest := by
  obtain ⟨-, hne, hb⟩ := h.join_inputs k hk hjn
  refine ⟨filter_eq_self.2 fun i hi => by rw [hb i hi]; rfl, (p.inputsOf k).tail, ?_⟩
  rw [meets, hjn]
  cases hins : p.inputsOf k with
  | nil => exact absurd hins hne
  | cons i rest => rfl

lemma inputsOf_target (hk : k ∈ p.keys) (htarget : p.graph.isTarget k) :
    ∃ i, p.inputsOf k = [i] ∧ p.inner k = if p.graph.isBoundary i then [] else [i] := by
  obtain ⟨i, hi⟩ := length_eq_one_iff.1 (h.target_inputs k hk htarget)
  have hinner : p.inner k = (p.inputsOf k).filter (!p.graph.isBoundary ·) := rfl
  rw [hinner, hi]
  cases hb : p.graph.isBoundary i with
  | true => simp [hb]
  | false => simp [hb]

end Proper

lemma Stageable.nodup_entries (h : p.Stageable) (hp : p.Proper) : ∀ e ∈ p.inputs.entries, e.2.Nodup := by
  intro e he
  have hget : p.inputs.get? e.1 = some e.2 := Keyed.get?_of_mem hp.keys_nodup he
  have hnd := h.inputs_nodup e.1 (Keyed.mem_keys_of_get? hget)
  rwa [inputsOf, hget] at hnd

lemma Stageable.nodup_inner (h : p.Stageable) (k : ℕ) : (p.inner k).Nodup := by
  by_cases hk : k ∈ p.keys
  · exact (h.inputs_nodup k hk).filter _
  · have hinner : p.inner k = [] := eq_nil_iff_forall_not_mem.2 fun i hi =>
      hk (mem_keys_of_mem_inputsOf (mem_inner.1 hi).1)
    rw [hinner]
    exact nodup_nil

lemma Stageable.outsOf_eq (h : p.Stageable) (hp : p.Proper) (i : ℕ) : p.outsOf i = p.inputs.consumers i := by
  rw [outsOf, hp.outs_eq, Links.getD_reversed (h.nodup_entries hp)]

lemma Stageable.mem_outsOf (h : p.Stageable) (hp : p.Proper) : k ∈ p.outsOf i ↔ i ∈ p.inputsOf k := by
  rw [h.outsOf_eq hp, hp.mem_consumers]

end Setting

open List Tensor Nat
open Tensor (Fits Shows)

variable {a : ℕ → ℕ} {first : Aligned ℚ} {rest : List (Aligned ℚ)}

namespace Setting

variable (p : Setting ℚ) (stages : Keyed ℕ (Stage ℚ))

/-- The nodes on which the costs up to the inputs of a key depend. -/
def axesOf (i : ℕ) : List ℕ := alignedNodes (p.inner i) ((p.inner i).map (neededBy stages))

def fullAxes (i : ℕ) : List ℕ := if p.graph.isTarget i then i :: p.axesOf stages i else p.axesOf stages i

/-- The inputs of a key that no earlier key has. -/
def newInputs (i : ℕ) : List ℕ := (p.inner i).filter fun j => ∀ k ∈ p.keys, k < i → j ∉ p.inputsOf k

/-- The cost of a key with the least costs up to the inputs that are new. -/
def fullCost (i : ℕ) (a : ℕ → ℕ) : ℚ := p.keyCost a i + ((p.newInputs i).map (costUpTo stages · a)).sum

variable {p stages} {i j k : ℕ} {b : ℕ → ℕ}

lemma mem_axesOf : k ∈ p.axesOf stages i ↔ ∃ j ∈ p.inner i, k = j ∨ k ∈ neededBy stages j := by
  rw [axesOf, mem_alignedNodes]

lemma mem_fullAxes : k ∈ p.fullAxes stages i ↔ p.graph.isTarget i ∧ k = i ∨ k ∈ p.axesOf stages i := by
  rw [fullAxes]
  split_ifs with htarget
  · rw [mem_cons, and_iff_right htarget]
  · rw [or_iff_right (htarget ·.1)]

lemma mem_fullAxes_of_mem_axesOf (hk : k ∈ p.axesOf stages i) : k ∈ p.fullAxes stages i := mem_fullAxes.2 (.inr hk)

lemma fullAxes_of_isTarget (htarget : p.graph.isTarget i)
    (stages : Keyed ℕ (Stage ℚ)) : p.fullAxes stages i = i :: p.axesOf stages i := if_pos htarget

lemma axesOf_of_inner_eq_singleton (hinner : p.inner i = [j])
    (hnd : (j :: neededBy stages j).Nodup) : p.axesOf stages i = j :: neededBy stages j := by
  rw [axesOf, hinner, alignedNodes, map_singleton, flatten_singleton]
  exact foldl_addNew_of_nodup hnd

lemma nodup_axesOf (hst : p.Stageable) (stages : Keyed ℕ (Stage ℚ)) (i : ℕ) :
    (p.axesOf stages i).Nodup := nodup_alignedNodes (hst.nodup_inner i) _

lemma exists_axesOf_eq_cons (hp : p.Proper) (hi : i ∈ p.keys) (hjn : p.graph.isTarget i = false)
    (stages : Keyed ℕ (Stage ℚ)) : ∃ tail, p.axesOf stages i = p.meets i :: tail := by
  obtain ⟨hsm, inputs, hins⟩ := hp.inputsOf_join hi hjn
  obtain ⟨more, hmr⟩ := exists_alignedNodes _ _
  exact ⟨inputs ++ more, by rw [axesOf, hmr, hsm, hins]; rfl⟩

lemma fullAxes_of_join (hjn : p.graph.isTarget i = false) (stages : Keyed ℕ (Stage ℚ)) :
    p.fullAxes stages i = p.axesOf stages i := by
  rw [fullAxes, hjn, if_neg Bool.false_ne_true]

lemma costUpTo_congr (hab : ∀ k ∈ i :: neededBy stages i, a k = b k) : costUpTo stages i a = costUpTo stages i b := by
  rw [neededBy] at hab
  rw [costUpTo, costUpTo]
  cases hs : stages.get? i with
  | none => rfl
  | some s =>
    rw [hs, Option.map_some, Option.getD_some] at hab
    rw [Option.map_some, Option.map_some, map_congr_left hab]

/-- The full cost of a key depends on the choices at the nodes of its full table only. -/
lemma fullCost_congr (hp : p.Proper) (hi : i ∈ p.keys) (hab : ∀ k ∈ p.fullAxes stages i, a k = b k) :
    p.fullCost stages i a = p.fullCost stages i b := by
  have hinner : ∀ j ∈ p.inner i, a j = b j := fun j hj =>
    hab j (mem_fullAxes_of_mem_axesOf (mem_axesOf.2 ⟨j, hj, .inl rfl⟩))
  have hmt : a (p.meets i) = b (p.meets i) := by
    cases htarget : p.graph.isTarget i with
    | true =>
      rw [meets_of_isTarget htarget]
      exact hab i (mem_fullAxes.2 (.inl ⟨htarget, rfl⟩))
    | false =>
      obtain ⟨hsm, rest, hins⟩ := hp.inputsOf_join hi htarget
      exact hinner _ (by rw [hsm, hins]; exact mem_cons_self)
  rw [fullCost, fullCost, keyCost]
  congr 1
  · congr 1
    · split_ifs with htarget
      · rw [← meets_of_isTarget htarget, hmt]
      · rfl
    · refine congrArg sum (map_congr_left fun j hj => ?_)
      rw [changeCost, changeCost, hmt, hinner j (mem_of_mem_filter hj)]
  · refine congrArg sum (map_congr_left fun j hj => costUpTo_congr fun k hk => ?_)
    refine hab k (mem_fullAxes_of_mem_axesOf (mem_axesOf.2 ⟨j, mem_of_mem_filter hj, ?_⟩))
    exact mem_cons.1 hk

lemma transform_eq_ok (hp : p.Proper) (hk : k ∈ p.keys) (hi : i ∈ p.inner k)
    (hne : i ≠ p.meets k) {x y : ℕ} (hx : x < p.choices i) (hy : y < p.choices k) : p.transform i (p.meets k) x y =
      .ok (((p.transforms.get? (i, p.meets k)).getD []).entry x y) := by
  obtain ⟨t, ht, hlen, hrw⟩ := hp.transforms k hk i hi hne
  have hx : x < t.length := hlen.symm ▸ hx
  have hy : y < t[x].length := (hrw _ (getElem_mem hx)).symm ▸ hy
  rw [transform, ht, orFail_some, ok_bind, getElem?_eq_getElem hx, orFail_some, ok_bind,
    getElem?_eq_getElem hy, orFail_some, Option.getD_some, CostTable.entry,
    getD_eq_getElem t [] hx, getD_eq_getElem t[x] 0 hy]

end Setting

/-! ### Targets -/

lemma of_mem_zipIdx {xs : List ℚ} {e : ℚ × ℕ} (h : e ∈ xs.zipIdx) (d : ℚ) : e.2 < xs.length ∧ e.1 = xs.getD e.2 d := by
  obtain ⟨k, hk, rfl⟩ := mem_iff_getElem.1 h
  have hk : k < xs.length := by simpa using hk
  rw [getElem_zipIdx, zero_add]
  exact ⟨hk, (getD_eq_getElem xs d hk).symm⟩

lemma flatten_map_range (n m : ℕ) (g : ℕ → ℕ → ℚ) : ((List.range n).map fun x => (List.range m).map (g x)).flatten =
      (List.range (n * m)).map fun e => g (e / m) (e % m) := by
  induction n with
  | zero => simp
  | succ n ih =>
    rw [range_succ, map_append, flatten_append, succ_mul, range_add,
      map_append, map_map, map_singleton, flatten_singleton]
    congr 1
    refine map_congr_left fun j hj => ?_
    have hj : j < m := mem_range.1 hj
    have hm : 0 < m := lt_of_le_of_lt (zero_le j) hj
    rw [Function.comp_apply, add_comm, add_mul_div_right _ _ hm, div_eq_of_lt hj,
      zero_add, add_mul_mod_self_right, mod_eq_of_lt hj]

namespace Progress

open Setting

variable {p : Setting ℚ} {s : Progress ℚ} {i j : ℕ}

/-- The inputs of a node whose costs have been counted are those that an earlier key has. -/
def Counts (p : Setting ℚ) (s : Progress ℚ) (i : ℕ) : Prop :=
  ∀ j ∈ p.inner i, s.counted.contains j = true ↔ ∃ k ∈ p.keys, k < i ∧ j ∈ p.inputsOf k

lemma sum_newInputs (h : s.Counts p i) (f : ℕ → ℚ) : ((p.newInputs i).map f).sum =
    ((p.inner i).map fun j => if s.counted.contains j then 0 else f j).sum := by
  rw [sum_map_ite, map_const', sum_replicate, nsmul_zero, zero_add]
  refine congrArg (fun l => (l.map f).sum) (filter_congr fun j hj => decide_eq_decide.2 ?_)
  rw [h j hj]
  push Not
  rfl

/-- The cost of an entry of the full table of a target, by the choice at the target and the entry
of the table before. -/
def entryCost (p : Setting ℚ) (s : Progress ℚ) (i j : ℕ) (before : Stage ℚ) (x e : ℕ) : ℚ :=
  (p.costs i).getD x 0 + ((p.transforms.get? (j, i)).getD []).entry (e / volume (before.needed.map p.choices)) x +
    if s.counted.contains j then 0 else before.states.data.toList.getD e 0

section

variable {before : Stage ℚ} (hp : p.Proper) (hi : i ∈ p.keys)
  (htarget : p.graph.isTarget i = true) (hinner : p.inner i = [j])
  (hshows : before.states.Shows p.choices (j :: before.needed) (costUpTo s.stages j))
  (hpos : 0 < volume (before.needed.map p.choices))

include hp htarget hinner in
lemma ne_meets : j ≠ p.meets i := by
  rw [meets_of_isTarget htarget]
  exact (hp.lt_of_mem_inner (hinner ▸ mem_cons_self)).ne

include hp hi htarget hinner hshows hpos in
lemma operatorTable_eq : s.operatorTable exactScale p i j before = .ok ⟨(i :: j :: before.needed).map p.choices,
      ((List.range (volume ((i :: j :: before.needed).map p.choices))).map fun e =>
        entryCost p s i j before (e / volume ((j :: before.needed).map p.choices))
          (e % volume ((j :: before.needed).map p.choices))).toArray⟩ := by
  have hlen : before.states.data.toList.length = volume ((j :: before.needed).map p.choices) := by
    rw [Array.length_toList, hshows.wellShaped, hshows.shape_eq]
  set m := volume ((j :: before.needed).map p.choices) with hm
  have hvl : volume ((p.costs i).length :: p.choices j :: before.needed.map p.choices) = p.choices i * m := rfl
  have hfl : ((p.costs i).zipIdx.map fun e =>
      (List.range m).map (entryCost p s i j before e.2)).flatten =
      (List.range (p.choices i * m)).map fun e => entryCost p s i j before (e / m) (e % m) := by
    rw [map_zipIdx_eq (p.costs i) 0 fun _ x => (List.range m).map (entryCost p s i j before x)]
    exact flatten_map_range _ m _
  rw [operatorTable]
  dsimp only
  rw [mapM_eq_ok (g := fun e => (List.range m).map (entryCost p s i j before e.2))]
  · rw [ok_bind, hfl, hvl, length_map, length_range, decide_eq_true le_rfl,
      demand_true, ok_bind, Nat.sub_self, replicate_zero, append_nil]
    rfl
  · intro e he
    obtain ⟨hx, hown⟩ := of_mem_zipIdx he 0
    have hst := map_zipIdx_eq before.states.data.toList 0 fun _ e' => entryCost p s i j before e.2 e'
    rw [hlen] at hst
    rw [mapM_eq_ok (g := fun f => entryCost p s i j before e.2 f.2), hst]
    intro f hf
    obtain ⟨hlt, hsta⟩ := of_mem_zipIdx hf 0
    rw [hlen, hm, map_cons, volume_cons] at hlt
    have hch := transform_eq_ok hp hi (hinner ▸ mem_cons_self)
      (ne_meets hp htarget hinner) ((div_lt_iff_lt_mul hpos).2 hlt) hx
    rw [meets_of_isTarget htarget] at hch
    have hdr : volume (List.drop 2 ((p.costs i).length :: p.choices j ::
        before.needed.map p.choices)) = volume (before.needed.map p.choices) := rfl
    rw [hdr, bne_iff_ne.2 hpos.ne', demand_true, ok_bind, hch, ok_bind, entryCost, ← hsta, ← hown]
    split_ifs
    · exact congrArg Except.ok (add_zero _).symm
    · rfl

include hp htarget hinner hshows hpos in
/-- An entry of the full table of a target is the full cost of the choice that it stands for. -/
lemma entryCost_offset (hcn : s.Counts p i) (ha : Fits p.choices (j :: before.needed) a) :
    entryCost p s i j before (a i) (offset ((j :: before.needed).map p.choices)
      ((j :: before.needed).map a)) = p.fullCost s.stages i a := by
  set e := offset ((j :: before.needed).map p.choices) ((j :: before.needed).map a) with he
  have hlst := offset_lt (ha.mono fun k hk => mem_cons_of_mem j hk).inside
  have hrow : e / volume (before.needed.map p.choices) = a j := by
    rw [he, map_cons, map_cons, offset_cons, add_comm, add_mul_div_right _ _ hpos, div_eq_of_lt hlst, zero_add]
  have hst : before.states.data.toList.getD e 0 = costUpTo s.stages j a := by
    rw [← hshows.get_eq a ha, Tensor.get, hshows.shape_eq, ← he]
    simp [Array.getD_eq_getD_getElem?]
    rfl
  have hky : p.keyCost a i = (p.costs i).getD (a i) 0 + ((p.transforms.get? (j, i)).getD []).entry (a j) (a i) := by
    have hne := ne_meets hp htarget hinner
    rw [keyCost, if_pos htarget, hinner, filter_cons_of_pos (by simpa using hne), meets_of_isTarget htarget]
    simp [changeCost]
  have hnew := sum_newInputs hcn fun k => costUpTo s.stages k a
  rw [hinner, map_singleton, sum_singleton] at hnew
  rw [entryCost, fullCost, hky, hnew, hrow, hst]

include hp hi htarget hinner hshows in
lemma operatorTable_eq_ok (hcn : s.Counts p i) (hnd : ∀ k ∈ before.needed, 0 < p.choices k) :
    ∃ t, s.operatorTable exactScale p i j before = .ok t ∧
      t.Shows p.choices (i :: j :: before.needed) (p.fullCost s.stages i) := by
  have hpos : 0 < volume (before.needed.map p.choices) := volume_pos fun n hn => by
    obtain ⟨k, hk, rfl⟩ := mem_map.1 hn
    exact hnd k hk
  refine ⟨_, operatorTable_eq hp hi htarget hinner hshows hpos, shows_mk fun a ha => ?_⟩
  have hr : Fits p.choices (j :: before.needed) a := ha.mono fun k hk => mem_cons_of_mem i hk
  have hlt := offset_lt hr.inside
  have hm : 0 < volume ((j :: before.needed).map p.choices) := zero_lt_of_lt hlt
  rw [map_cons, map_cons (f := a), offset_cons, add_comm,
    add_mul_div_right _ _ hm, div_eq_of_lt hlt, zero_add, add_mul_mod_self_right,
    mod_eq_of_lt hlt, entryCost_offset hp htarget hinner hshows hpos hcn hr]

end

/-! ### Joins -/

/-- The layout of a join is that of its first input, and the others are brought to it. -/
lemma keyCost_join (hst : p.Stageable) (hjn : p.graph.isTarget i = false) {rest : List ℕ}
    (hinner : p.inner i = p.meets i :: rest) (a : ℕ → ℕ) :
    p.keyCost a i = (rest.map (p.changeCost a · (p.meets i))).sum := by
  have hnd := hst.nodup_inner i
  rw [hinner, nodup_cons] at hnd
  have hfl : (p.inner i).filter (· ≠ p.meets i) = rest := by
    rw [hinner, filter_cons_of_neg (by simp)]
    refine filter_eq_self.2 fun j hj => decide_eq_true fun e => hnd.1 (e ▸ hj)
  rw [keyCost, hjn, if_neg Bool.false_ne_true, zero_add, hfl]

/-- What the table of an input contributes to an entry: the change of layout to that of the first
input, and the least cost up to the input. -/
structure Contributes (p : Setting ℚ) (s : Progress ℚ) (first : Aligned ℚ) (e i : ℕ) (a : ℕ → ℕ)
    (j : ℕ) (t : Aligned ℚ) : Prop where
  node_eq : t.node = j
  change : p.transform j first.node (t.choiceAt e).toNat (first.choiceAt e).toNat = .ok (p.changeCost a j (p.meets i))
  state : t.states.data.getD e default = costUpTo s.stages j a

lemma foldlM_contributes {e : ℕ} {others : List ℕ}
    (h : List.Forall₂ (Contributes p s first e i a) others rest) (start : ℚ) : rest.foldlM (fun total t => do
      let change ← p.transform t.node first.node (t.choiceAt e).toNat (first.choiceAt e).toNat
      return exactScale.add total (if s.counted.contains t.node then change
        else exactScale.add change (t.states.data.getD e default))) start =
      .ok (start + (others.map fun j => p.changeCost a j (p.meets i) +
        if s.counted.contains j then 0 else costUpTo s.stages j a).sum) := by
  induction h generalizing start with
  | nil => simp
  | @cons j t others rest ht _ ih =>
    rw [foldlM_cons, ht.node_eq, ht.change, ok_bind, ht.state, pure_eq_ok, ok_bind, ih, map_cons, sum_cons]
    split_ifs
    · rw [exactScale_add, add_zero, add_assoc]
    · rw [exactScale_add, exactScale_add, add_assoc]

/-- An entry of the table of a join is the full cost of the choice that it stands for. -/
lemma joinedCost_eq_ok (hp : p.Proper) (hst : p.Stageable) (hi : i ∈ p.keys)
    (hjn : p.graph.isTarget i = false) (hcn : s.Counts p i) {nodes : List ℕ}
    (hall : List.Forall₂ (fun j => AlignedTo p.choices nodes j (costUpTo s.stages j)) (p.inner i) (first :: rest))
    (hsub : ∀ j ∈ p.inner i, j ∈ nodes) (ha : Fits p.choices nodes a) : joinedCost exactScale p s.counted first rest
      (offset (nodes.map p.choices) (nodes.map a)) = .ok (p.fullCost s.stages i a) := by
  obtain ⟨hsm, others, hins⟩ := hp.inputsOf_join hi hjn
  have hinner : p.inner i = p.meets i :: others := hsm.trans hins
  have hfr : p.meets i ∈ p.inner i := by rw [hinner]; exact mem_cons_self
  have hlt : a (p.meets i) < p.choices i := hp.choices_meets i hi ▸ ha _ (hsub _ hfr)
  have hnd := hst.nodup_inner i
  rw [hinner, nodup_cons] at hnd
  rw [hinner] at hall
  obtain ⟨hfst, hr⟩ := forall₂_cons.1 hall
  set e := offset (nodes.map p.choices) (nodes.map a) with he
  -- what the tables show at the entry
  have hsta : ∀ j (t : Aligned ℚ), AlignedTo p.choices nodes j (costUpTo s.stages j) t →
      t.states.data.getD e default = costUpTo s.stages j a := fun _ _ ht => ht.getD_offset ha
  have hcnt : Forall₂ (Contributes p s first e i a) others rest := by
    have hmem : ∀ j ∈ others, j ∈ p.inner i ∧ j ≠ p.meets i := fun j hj =>
      ⟨by rw [hinner]; exact mem_cons_of_mem _ hj, fun e => hnd.1 (e ▸ hj)⟩
    refine ((forall₂_and_left others rest).2 ⟨hmem, hr⟩).imp fun j t ht => ?_
    obtain ⟨⟨hj, hne⟩, ht⟩ := ht
    refine ⟨ht.node_eq, ?_, hsta j t ht⟩
    rw [hfst.node_eq, ht.choice_eq a ha e (Int.ModEq.refl _), hfst.choice_eq a ha e (Int.ModEq.refl _),
      transform_eq_ok hp hi hj hne (ha j (hsub j hj)) hlt, changeCost]
  have hne : rest.isEmpty = false := by
    have hlen := hst.several i hi hjn
    rw [hins, length_cons, hr.length_eq] at hlen
    cases rest with
    | nil => simp at hlen
    | cons t rest => rfl
  rw [joinedCost]
  dsimp only
  rw [foldlM_contributes hcnt, ok_bind, hne, hfst.node_eq,
    hsta _ first hfst, fullCost, keyCost_join hst hjn hinner, sum_newInputs hcn, hinner,
    map_cons, sum_cons, sum_map_add, exactScale_zero]
  refine congrArg Except.ok ?_
  change _ + (_ + _) = _
  ring

end Progress

end TensorToolchain.LayoutChoice
