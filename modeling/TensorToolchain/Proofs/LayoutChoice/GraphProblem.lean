import TensorToolchain.Proofs.LayoutChoice.EdgeTables
import TensorToolchain.Proofs.LayoutChoice.MutualNeighbours

/-!
# What a choice for a graph costs

Layouts are chosen at the keys of the links. The cost is that of the choice at every key and that of
every edge into one from an input that is no boundary node. At most keys an input is brought to the
layout of the key. A node that joins several inputs has the layout of the first, and every later one
is brought to that layout, at the cost that is given for its edge to the first.
-/

namespace TensorToolchain.LayoutChoice

open List CostTable Keyed

variable {a : ℕ → ℕ}

/-- A graph with the inputs of its keys, the costs of the choices at each node, and the tables that
are given for edges. -/
structure GraphProblem where
  graph : Graph
  inputs : Links
  costs : ℕ → List ℚ
  given : List ((ℕ × ℕ) × CostTable ℚ)

namespace GraphProblem

variable (p : GraphProblem)

def keys : List ℕ := p.inputs.keys

def inner (k : ℕ) : List ℕ := p.inputs.inner p.graph k

/-- The node to whose layout the inputs of a key are brought: the first of them if the key joins
several, and otherwise the key itself. -/
def meets (k : ℕ) : ℕ := if p.graph.joins k then (p.inner k).headD k else k

def size (k : ℕ) : ℕ := (p.costs k).length

/-- The table that is given for an edge, the last one if there are several. -/
def transform (i k : ℕ) : CostTable ℚ := ((Keyed.ofList p.given).get? (i, k)).getD []

/-- The cost of the edge from an input to a key. -/
def edgeCost (a : ℕ → ℕ) (i k : ℕ) : ℚ :=
  if i = p.meets k then (if a i = a k then 0 else exactScale.invalid)
  else (p.transform i (p.meets k)).entry (a i) (a (p.meets k))

/-- The costs of the choices at the keys with those of the edges. -/
def totalWith (edge : ℕ → ℕ → ℚ) (a : ℕ → ℕ) : ℚ :=
  (p.keys.map fun k => (p.costs k).getD (a k) 0 + ((p.inner k).map (edge · k)).sum).sum

def total (a : ℕ → ℕ) : ℚ := p.totalWith (p.edgeCost a) a

/-- A choice at every key. -/
def Assigns (a : ℕ → ℕ) : Prop := ∀ k ∈ p.keys, a k < p.size k

instance (a : ℕ → ℕ) : Decidable (p.Assigns a) := inferInstanceAs (Decidable (∀ k ∈ p.keys, a k < p.size k))

/-- The table by which an edge from an input to a key is charged. -/
def edgeTable (i k : ℕ) : CostTable ℚ := if i = p.meets k then exactScale.tie (p.size i) else p.transform i (p.meets k)

/-- The inputs of a key are listed once and come before it. There is a choice at every key, and a
joining key has those of its first input. Every edge between keys that is charged by a given table
has one; no given table is empty, and each has a row for every choice at its source and a column for
every one at its destination. No cost is less than zero. -/
@[mk_iff]
structure Proper : Prop where
  keys_nodup : p.keys.Nodup
  inputs_nodup : ∀ e ∈ p.inputs.entries, e.2.Nodup
  earlier : ∀ e ∈ p.inputs.entries, ∀ i ∈ e.2, i < e.1
  costs_ne_nil : ∀ k ∈ p.keys, p.costs k ≠ []
  costs_nonneg : ∀ k ∈ p.keys, ∀ x ∈ p.costs k, 0 ≤ x
  size_meets : ∀ k ∈ p.keys, p.meets k ∈ p.keys → p.size (p.meets k) = p.size k
  given_mem : ∀ k ∈ p.keys, ∀ i ∈ p.inner k, i ∈ p.keys → p.meets k ∈ p.keys → i ≠ p.meets k →
    (i, p.meets k) ∈ p.given.map Prod.fst
  given_ne_nil : ∀ e ∈ p.given, e.2 ≠ []
  given_shaped : ∀ e ∈ p.given, e.2.Shaped (p.size e.1.1) (p.size e.1.2)
  given_nonneg : ∀ e ∈ p.given, ∀ row ∈ e.2, ∀ x ∈ row, 0 ≤ x

instance : Decidable p.Proper := decidable_of_iff _ p.proper_iff.symm

/-- The least total is that of a possible layout. -/
def Possible : Prop := ∃ a, p.Assigns a ∧ p.total a < exactScale.invalid

/-- No table of an edge stands in the way of another: a table that is given against the direction
of an edge is the transpose of the one by which the edge is charged, and no two edges are charged by
the same given table. -/
@[mk_iff]
structure Separate : Prop where
  opposite : ∀ k ∈ p.keys, ∀ i ∈ p.inner k, (k, i) ∈ p.given.map Prod.fst →
    ∀ x < p.size i, ∀ y < p.size k, (p.transform k i).entry y x = (p.edgeTable i k).entry x y
  unshared : ∀ k ∈ p.keys, ∀ l ∈ p.keys, ∀ i ∈ p.inner k, i ∈ p.inner l → i ≠ p.meets k →
    i ≠ p.meets l → p.meets k = p.meets l → k = l

instance : Decidable p.Separate := decidable_of_iff _ p.separate_iff.symm

/-- The inputs of the keys that are no boundary nodes are keys, and the others are not. -/
def Inside : Prop := ∀ e ∈ p.inputs.entries, ∀ i ∈ e.2, i ∈ p.keys ↔ p.graph.isBoundary i = false

instance : Decidable p.Inside := inferInstanceAs (Decidable (∀ e ∈ p.inputs.entries, ∀ i ∈ e.2, i ∈ p.keys ↔
    p.graph.isBoundary i = false))

variable {p} {i k : ℕ}

/-- A key is the node to whose layout its inputs are brought, unless that is one of the inputs. -/
lemma meets_eq_or_mem (p : GraphProblem) (k : ℕ) : p.meets k = k ∨ p.meets k ∈ p.inner k := by
  rw [meets]
  split_ifs
  · cases p.inner k with
    | nil => exact .inl rfl
    | cons first rest => exact .inr mem_cons_self
  · exact .inl rfl

lemma mem_keys_of_mem_inner (hi : i ∈ p.inner k) : k ∈ p.keys := Links.mem_keys_of_mem_inner hi

lemma Inside.mem_keys (h : p.Inside) (hi : i ∈ p.inner k) : i ∈ p.keys := by
  obtain ⟨hls, hb⟩ := Links.mem_inner.1 hi
  obtain ⟨ins, -, he, hls⟩ := Links.exists_entry hls
  exact (h (k, ins) he i hls).2 hb

lemma Inside.meets_mem_keys (h : p.Inside) (hk : k ∈ p.keys) : p.meets k ∈ p.keys := by
  rcases meets_eq_or_mem p k with hsl | hmem
  · exact hsl.symm ▸ hk
  · exact h.mem_keys hmem

namespace Proper

variable (h : p.Proper)
include h

lemma nodup_inner (k : ℕ) : (p.inner k).Nodup := by
  rw [inner, Links.inner]
  cases hins : p.inputs.get? k with
  | none => exact nodup_nil
  | some ins => exact (h.inputs_nodup (k, ins) (mem_of_get? hins)).filter _

lemma lt_of_mem_inner (hi : i ∈ p.inner k) : i < k := by
  obtain ⟨ins, -, he, hi⟩ := Links.exists_entry (Links.mem_inner.1 hi).1
  exact h.earlier (k, ins) he i hi

lemma size_pos (hk : k ∈ p.keys) : 0 < p.size k := length_pos_iff.2 (h.costs_ne_nil k hk)

section

variable (hin : p.Inside)
include hin

lemma size_meets_eq (hk : k ∈ p.keys) : p.size (p.meets k) = p.size k := h.size_meets k hk (hin.meets_mem_keys hk)

lemma exists_given (hi : i ∈ p.inner k) (hmt : i ≠ p.meets k) :
    (ofList p.given).get? (i, p.meets k) = some (p.transform i (p.meets k)) ∧
      ((i, p.meets k), p.transform i (p.meets k)) ∈ p.given := by
  have hk := mem_keys_of_mem_inner hi
  have hmem := h.given_mem k hk i hi (hin.mem_keys hi) (hin.meets_mem_keys hk) hmt
  obtain ⟨t, ht⟩ := exists_get? (mem_keys_ofList.2 hmem)
  rw [transform, ht]
  exact ⟨rfl, mem_of_get?_ofList ht⟩

lemma shaped_edgeTable (hi : i ∈ p.inner k) : (p.edgeTable i k).Shaped (p.size i) (p.size k) := by
  have hsz := h.size_meets_eq hin (mem_keys_of_mem_inner hi)
  rw [edgeTable]
  split_ifs with hmt
  · rw [← hsz, ← hmt]
    exact tie_shaped _
  · rw [← hsz]
    exact h.given_shaped _ (h.exists_given hin hi hmt).2

lemma edgeTable_nonneg (hi : i ∈ p.inner k) (x y : ℕ) : 0 ≤ (p.edgeTable i k).entry x y := by
  have hsh := h.shaped_edgeTable hin hi
  by_cases hxy : x < p.size i ∧ y < p.size k
  · rw [edgeTable]
    split_ifs with hmt
    · have hy : y < p.size i := by
        rw [hmt, h.size_meets_eq hin (mem_keys_of_mem_inner hi)]
        exact hxy.2
      rw [entry_tie hxy.1 hy]
      split_ifs
      · exact le_rfl
      · exact exactScale_invalid_pos.le
    · exact entry_nonneg (h.given_nonneg _ (h.exists_given hin hi hmt).2) x y
  · rw [hsh.entry_of_le (by omega)]

lemma edgeCost_nonneg (a : ℕ → ℕ) (hi : i ∈ p.inner k) : 0 ≤ p.edgeCost a i k := by
  rw [edgeCost]
  split_ifs with hmt
  · exact le_rfl
  · exact exactScale_invalid_pos.le
  · exact entry_nonneg (h.given_nonneg _ (h.exists_given hin hi hmt).2) _ _

end

lemma le_totalWith (edge : ℕ → ℕ → ℚ) (a : ℕ → ℕ) (hed : ∀ k, ∀ i ∈ p.inner k, 0 ≤ edge i k)
    (hi : i ∈ p.inner k) : edge i k ≤ p.totalWith edge a := by
  have hsum : ∀ k, 0 ≤ ((p.inner k).map (edge · k)).sum := by
    intro k
    refine sum_nonneg fun x hx => ?_
    obtain ⟨j, hj, rfl⟩ := mem_map.1 hx
    exact hed k j hj
  have hcs : ∀ k ∈ p.keys, 0 ≤ (p.costs k).getD (a k) 0 := fun k hk => getD_nonneg (h.costs_nonneg k hk) _
  have hk := mem_keys_of_mem_inner hi
  calc edge i k ≤ ((p.inner k).map (edge · k)).sum := by
        refine single_le_sum (fun x hx => ?_) _ (mem_map.2 ⟨i, hi, rfl⟩)
        obtain ⟨j, hj, rfl⟩ := mem_map.1 hx
        exact hed k j hj
    _ ≤ (p.costs k).getD (a k) 0 + ((p.inner k).map (edge · k)).sum := le_add_of_nonneg_left (hcs k hk)
    _ ≤ p.totalWith edge a := by
        refine single_le_sum (fun x hx => ?_) _ (mem_map.2 ⟨k, hk, rfl⟩)
        obtain ⟨l, hl, rfl⟩ := mem_map.1 hx
        exact add_nonneg (hcs l hl) (hsum l)

end Proper

/-! ### Keys that are tied to an input -/

/-- Every key has the choice of the node to whose layout its inputs are brought. -/
def Tied (p : GraphProblem) (a : ℕ → ℕ) : Prop := ∀ k ∈ p.keys, a (p.meets k) = a k

/-- The total cost of an assignment, with every edge charged by its table. -/
def tableTotal (p : GraphProblem) (a : ℕ → ℕ) : ℚ := p.totalWith (fun i k => (p.edgeTable i k).entry (a i) (a k)) a

lemma total_eq_tableTotal (hin : p.Inside) (ha : p.Assigns a) (htd : p.Tied a) : p.total a = p.tableTotal a := by
  rw [total, tableTotal, totalWith, totalWith]
  congr 1
  refine map_congr_left fun k hk => ?_
  congr 2
  refine map_congr_left fun i hi => ?_
  rw [edgeCost, edgeTable]
  split_ifs with hmt hsm
  · have hi := ha i (hin.mem_keys hi)
    rw [← hsm, entry_tie hi hi, if_pos rfl]
  · exact absurd (hmt ▸ htd k hk) hsm
  · rw [htd k hk]

namespace Proper

variable (h : p.Proper) (hin : p.Inside)
include h hin

/-- A key that is not tied to its first input makes the total that of an impossible layout. -/
lemma invalid_le (ha : p.Assigns a) (htd : ¬ p.Tied a) :
    exactScale.invalid ≤ p.total a ∧ exactScale.invalid ≤ p.tableTotal a := by
  obtain ⟨k, hk, hne⟩ : ∃ k ∈ p.keys, a (p.meets k) ≠ a k := by simpa [Tied] using htd
  have hi : p.meets k ∈ p.inner k := (meets_eq_or_mem p k).resolve_left fun e => hne (by rw [e])
  have hcs : p.edgeCost a (p.meets k) k = exactScale.invalid := by rw [edgeCost, if_pos rfl, if_neg hne]
  have htb : (p.edgeTable (p.meets k) k).entry (a (p.meets k)) (a k) = exactScale.invalid := by
    have hlt := ha _ (hin.mem_keys hi)
    have hlt' : a k < p.size (p.meets k) := (ha k hk).trans_eq (h.size_meets_eq hin hk).symm
    rw [edgeTable, if_pos rfl, entry_tie hlt hlt', if_neg hne]
  constructor
  · rw [← hcs]
    exact h.le_totalWith _ a (fun k i hi => h.edgeCost_nonneg hin a hi) hi
  · rw [← htb]
    exact h.le_totalWith (fun i k => (p.edgeTable i k).entry (a i) (a k)) a
      (fun k i hi => h.edgeTable_nonneg hin hi _ _) hi

lemma tableTotal_possible (hps : p.Possible) : ∃ a, p.Assigns a ∧ p.tableTotal a < exactScale.invalid := by
  obtain ⟨a, ha, hlt⟩ := hps
  have htd : p.Tied a := by
    by_contra htd
    exact absurd (h.invalid_le hin ha htd).1 (not_le.2 hlt)
  exact ⟨a, ha, total_eq_tableTotal hin ha htd ▸ hlt⟩

/-- An assignment with the least total by the tables of the edges has the least total. -/
lemma total_le_of_tableTotal_le (hps : p.Possible) {b : ℕ → ℕ} (hb : p.Assigns b)
    (hls : ∀ a, p.Assigns a → p.tableTotal b ≤ p.tableTotal a) (ha : p.Assigns a) : p.total b ≤ p.total a := by
  have hle : p.tableTotal b < exactScale.invalid := by
    obtain ⟨c, hc, hlt⟩ := h.tableTotal_possible hin hps
    exact (hls c hc).trans_lt hlt
  have htd : p.Tied b := by
    by_contra htd
    exact absurd (h.invalid_le hin hb htd).2 (not_le.2 hle)
  rw [total_eq_tableTotal hin hb htd]
  by_cases hta : p.Tied a
  · rw [total_eq_tableTotal hin ha hta]
    exact hls a ha
  · exact hle.le.trans (h.invalid_le hin ha hta).1

end Proper

/-! ### Where a run for a graph starts

The keys are filed by their neighbours, the inputs that are left and the keys that each is an input
of. The two need not agree: an input may be no key, and a boundary node that is a key still lists
the keys that it was an input of. A run for such a graph fails or has to fix a choice.
-/

open Elimination Links

variable {u r : Elimination ℚ}

def innerLinks (p : GraphProblem) : Links := p.inputs.mapValues fun _ ins => ins.filter (!p.graph.isBoundary ·)

/-- The state before the edges have tables. -/
def start (p : GraphProblem) : Elimination ℚ := Elimination.start p.innerLinks (reversed p.inputs) p.costs

/-- The state before the first step, with some tables. -/
def Tabled (p : GraphProblem) (u : Elimination ℚ) : Prop := ∃ tables tableOf, u = { p.start with tables, tableOf }

lemma keys_innerLinks (p : GraphProblem) : p.innerLinks.keys = p.keys := keys_mapValues ..

lemma get?_innerLinks (hk : k ∈ p.keys) : p.innerLinks.get? k = some (p.inner k) := by
  obtain ⟨ins, hins⟩ := exists_get? hk
  rw [innerLinks, get?_mapValues, inner, Links.inner, hins, Option.map_some, Option.getD_some]

lemma Proper.run_eq (h : p.Proper) : run exactScale p.graph p.inputs p.costs p.given =
    p.start.withTables exactScale p.graph p.innerLinks p.costs p.given >>= fun u =>
      u.solve exactScale >>= fun r => .ok (p.start, r) := by
  rw [run, innerLinks_eq_ok h.keys_nodup h.inputs_nodup]
  rfl

lemma tabled_of_withTables (h : p.start.withTables exactScale p.graph p.innerLinks p.costs p.given = .ok u) :
    p.Tabled u := of_withTables_eq_ok rfl h

namespace Tabled

variable (h : p.Tabled u)
include h

lemma mem_live : k ∈ u.live ↔ k ∈ p.keys := by
  have hlv : u.live = p.start.live := by
    obtain ⟨tables, tableOf, rfl⟩ := h
    rfl
  rw [hlv, start, mem_live_start, keys_innerLinks]

lemma prices_eq (hk : k ∈ p.keys) : u.prices k = p.costs k := by
  have hpr : u.prices k = p.start.prices k := by
    obtain ⟨tables, tableOf, rfl⟩ := h
    rfl
  rw [hpr, start, prices_start (p.keys_innerLinks.symm ▸ hk)]

lemma around_eq_start (k : ℕ) : u.around k = p.start.around k := by
  obtain ⟨tables, tableOf, rfl⟩ := h
  rfl

lemma around_eq_nil (hk : k ∉ p.keys) : u.around k = [] := by
  rw [h.around_eq_start, start, around_start_of_notMem (p.keys_innerLinks.symm ▸ hk)]

/-- Without keys there is no bucket of nodes with one neighbour, and a run is refused. -/
lemma keys_ne_nil (hsl : u.solve exactScale = .ok r) : p.keys ≠ [] := by
  intro hnil
  have hen : p.inputs.entries = [] := map_eq_nil_iff.1 hnil
  have hbc : u.buckets[1]? = none := by
    obtain ⟨tables, tableOf, rfl⟩ := h
    simp [start, Elimination.start, innerLinks, mapValues, values, hen]
  obtain ⟨_, hfr, -⟩ := bind_eq_ok.1 hsl
  obtain ⟨_, hst, -⟩ := bind_eq_ok.1 hfr
  obtain ⟨_, hsn, -⟩ := bind_eq_ok.1 hst
  rw [hbc] at hsn
  cases hsn

variable (hp : p.Proper)
include hp

lemma around_eq (hk : k ∈ p.keys) : u.around k = p.inner k ++ p.inputs.consumers k := by
  rw [h.around_eq_start, start, around_start (get?_innerLinks hk), getD_reversed hp.inputs_nodup]

lemma mem_around (hin : p.Inside) (hk : k ∈ p.keys) : i ∈ u.around k ↔ i ∈ p.inner k ∨ k ∈ p.inner i := by
  rw [h.around_eq hp hk, mem_append, mem_consumers hp.keys_nodup]
  refine or_congr_right ⟨fun hki => mem_inner.2 ⟨hki, ?_⟩, fun hki => (mem_inner.1 hki).1⟩
  obtain ⟨ins, -, he, hki⟩ := exists_entry hki
  exact (hin (i, ins) he k hki).1 hk

lemma nodup_around (hk : k ∈ p.keys) : (u.around k).Nodup := by
  rw [h.around_eq hp hk, nodup_append]
  refine ⟨hp.nodup_inner k, nodup_consumers hp.keys_nodup k, ?_⟩
  rintro i hi _ hcn rfl
  have hlt := hp.lt_of_mem_inner hi
  obtain ⟨ins, -, he, hki⟩ := exists_entry ((mem_consumers hp.keys_nodup).1 hcn)
  exact absurd (hp.earlier (i, ins) he k hki) hlt.asymm

lemma irrefl (k : ℕ) : k ∉ u.around k := by
  intro hkk
  by_cases hk : k ∈ p.keys
  · rw [h.around_eq hp hk, mem_append] at hkk
    rcases hkk with hkk | hkk
    · exact lt_irrefl k (hp.lt_of_mem_inner hkk)
    · obtain ⟨ins, -, he, hkk⟩ := exists_entry ((mem_consumers hp.keys_nodup).1 hkk)
      exact lt_irrefl k (hp.earlier (k, ins) he k hkk)
  · rw [h.around_eq_nil hk] at hkk
    exact not_mem_nil hkk

lemma tidy : u.Tidy := by
  have hks : ∀ {k}, k ∈ u.live → k ∈ p.innerLinks.keys := p.keys_innerLinks.symm ▸ h.mem_live.1
  have hbc : u.buckets = p.start.buckets := by
    obtain ⟨tables, tableOf, rfl⟩ := h
    rfl
  have hdg : u.degree = p.start.degree := by
    obtain ⟨tables, tableOf, rfl⟩ := h
    rfl
  have hst : u.stack = [] := by
    obtain ⟨tables, tableOf, rfl⟩ := h
    rfl
  refine ⟨?_, fun k hk => ?_, fun k hk => ?_, h.irrefl hp, ?_, ?_⟩
  · rw [hbc, hdg]
    exact filed_start (p.keys_innerLinks.symm ▸ hp.keys_nodup)
  · rw [hdg, h.around_eq_start]
    exact degree_start (hks hk)
  · rw [hbc, h.around_eq_start]
    exact room_start (hks hk)
  · rw [hst]
    exact fun _ hj => absurd hj not_mem_nil
  · rw [hst]
    exact nodup_nil

/-! ### What a run that ends says of the graph -/

/-- If a run ends that fixes no choice, the neighbours of a key list it. -/
lemma mem_around_of_solve (hsl : u.solve exactScale = .ok r) (hopt : r.optimal) (hk : k ∈ p.keys)
    (hi : i ∈ u.around k) : k ∈ u.around i := by
  have hst : u.stack = [] ∧ u.chosen = {} := by
    obtain ⟨tables, tableOf, rfl⟩ := h
    exact ⟨rfl, rfl⟩
  have hle := (h.tidy hp).count_le_of_solve hst.1 hst.2 hsl hopt (h.mem_live.2 hk) i
  exact count_pos_iff.1 ((count_pos_iff.2 hi).trans_le hle)

/-- If a run ends that fixes no choice, the inputs of the keys are keys unless they are boundary
nodes: else there is a key that one of its neighbours does not list. -/
lemma inside (hsl : u.solve exactScale = .ok r) (hopt : r.optimal) : p.Inside := by
  rintro ⟨k, ins⟩ he i hi
  have hins : p.inputs.get? k = some ins := get?_of_mem hp.keys_nodup he
  have hk : k ∈ p.keys := mem_keys_of_get? hins
  have hls : i ∈ (p.inputs.get? k).getD [] := by
    rw [hins]
    exact hi
  constructor
  · intro hik
    have hbc : i ∈ u.around k := by
      refine h.mem_around_of_solve hp hsl hopt hik ?_
      rw [h.around_eq hp hik, mem_append, mem_consumers hp.keys_nodup]
      exact .inr hls
    rw [h.around_eq hp hk, mem_append, mem_consumers hp.keys_nodup] at hbc
    rcases hbc with hki | hki
    · exact (mem_inner.1 hki).2
    · obtain ⟨ins', -, he', hki⟩ := exists_entry hki
      exact absurd (hp.earlier (k, ins) he i hi) (hp.earlier _ he' k hki).asymm
  · intro hbn
    by_contra hik
    have hmem : i ∈ u.around k := by
      rw [h.around_eq hp hk]
      exact mem_append_left _ (mem_inner.2 ⟨hls, hbn⟩)
    have hbc := h.mem_around_of_solve hp hsl hopt hk hmem
    rw [h.around_eq_nil hik] at hbc
    exact not_mem_nil hbc

end Tabled

end GraphProblem

end TensorToolchain.LayoutChoice
