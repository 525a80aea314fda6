import TensorToolchain.Proofs.LayoutChoice.Filing

/-!
# Total costs and the invariant

The total cost of an assignment of choices is the cost of the choice at every node, and for every
two nodes the cost of the pair of their choices, counted once. It changes with one node more, and
with a change of the costs of one node or of one pair.
-/

namespace TensorToolchain.LayoutChoice

open Finset Option

variable {d : ℚ}

/-- The costs at the nodes and between any two of them. -/
def totalCost (nodes : Finset ℕ) (cost : ℕ → ℕ → ℚ) (pair : ℕ → ℕ → ℕ → ℕ → ℚ) (a : ℕ → ℕ) : ℚ :=
  ∑ i ∈ nodes, cost i (a i) + ∑ i ∈ nodes, ∑ k ∈ nodes with i < k, pair i k (a i) (a k)

variable {nodes : Finset ℕ} {cost cost' : ℕ → ℕ → ℚ} {pair pair' : ℕ → ℕ → ℕ → ℕ → ℚ} {a b : ℕ → ℕ}

lemma totalCost_congr (hcs : ∀ i ∈ nodes, cost i (a i) = cost' i (b i))
    (hpr : ∀ i ∈ nodes, ∀ k ∈ nodes, pair i k (a i) (a k) = pair' i k (b i) (b k)) :
    totalCost nodes cost pair a = totalCost nodes cost' pair' b := by
  rw [totalCost, sum_congr rfl hcs]
  congr 1
  refine sum_congr rfl fun i hi => sum_congr rfl fun k hk => ?_
  exact hpr i hi k (mem_of_mem_filter k hk)

/-- The pairs of one node with all others, whichever of the two comes first. -/
lemma sum_pairs_insert {v : ℕ} (hv : v ∉ nodes) (f : ℕ → ℕ → ℚ) (hsy : ∀ k ∈ nodes, f k v = f v k) :
    ∑ i ∈ insert v nodes, ∑ k ∈ insert v nodes with i < k, f i k =
      ∑ i ∈ nodes, ∑ k ∈ nodes with i < k, f i k + ∑ k ∈ nodes, f v k := by
  have hin : ∀ i ∈ nodes, ∑ k ∈ insert v nodes with i < k, f i k =
      ∑ k ∈ nodes with i < k, f i k + if i < v then f v i else 0 := by
    intro i hi
    rw [sum_filter, sum_insert hv, sum_filter, hsy i hi, add_comm]
  have hfst : ∑ k ∈ insert v nodes with v < k, f v k = ∑ k ∈ nodes, if v < k then f v k else 0 := by
    rw [sum_filter, sum_insert hv, if_neg (lt_irrefl v), zero_add]
  have hone : ∀ k ∈ nodes, ((if v < k then f v k else 0) + if k < v then f v k else 0) = f v k := by
    intro k hk
    rcases lt_trichotomy v k with h | h | h
    · rw [if_pos h, if_neg h.asymm, add_zero]
    · exact absurd (h ▸ hk) hv
    · rw [if_neg h.asymm, if_pos h, zero_add]
  rw [sum_insert hv, sum_congr rfl hin, sum_add_distrib, hfst, ← sum_congr rfl hone, sum_add_distrib]
  abel

/-- One node more adds its own cost and the costs of its pairs with the others. -/
lemma totalCost_insert {v : ℕ} (hv : v ∉ nodes) (hsy : ∀ k ∈ nodes, ∀ p q, pair k v q p = pair v k p q) :
    totalCost (insert v nodes) cost pair a =
      totalCost nodes cost pair a + (cost v (a v) + ∑ k ∈ nodes, pair v k (a v) (a k)) := by
  rw [totalCost, totalCost, sum_insert hv,
    sum_pairs_insert hv (fun i k => pair i k (a i) (a k)) fun k hk => hsy k hk _ _]
  abel

lemma totalCost_add_cost {k : ℕ} (hk : k ∈ nodes)
    (hcs : ∀ i ∈ nodes, cost' i (a i) = cost i (a i) + if i = k then d else 0) :
    totalCost nodes cost' pair a = totalCost nodes cost pair a + d := by
  rw [totalCost, totalCost, sum_congr rfl hcs, sum_add_distrib, sum_ite_eq' nodes k, if_pos hk]
  abel

lemma sum_one_pair {x y : ℕ} (hx : x ∈ nodes) (hy : y ∈ nodes) (hxy : x < y) :
    ∑ i ∈ nodes, ∑ k ∈ nodes with i < k, (if i = x ∧ k = y ∨ i = y ∧ k = x then d else 0) = d := by
  rw [sum_eq_single_of_mem x hx, sum_eq_single_of_mem y (mem_filter.2 ⟨hy, hxy⟩), if_pos (.inl ⟨rfl, rfl⟩)]
  · exact fun k _ hky => if_neg (by omega)
  · intro i _ hix
    refine sum_eq_zero fun k hk => if_neg ?_
    have hik : i < k := (mem_filter.1 hk).2
    omega

/-- A cost added to one pair, in both directions, is added to the total once. -/
lemma totalCost_add_pair {x y : ℕ} (hx : x ∈ nodes) (hy : y ∈ nodes) (hne : x ≠ y)
    (hpr : ∀ i ∈ nodes, ∀ k ∈ nodes, pair' i k (a i) (a k) = pair i k (a i) (a k) +
      if i = x ∧ k = y ∨ i = y ∧ k = x then d else 0) :
    totalCost nodes cost pair' a = totalCost nodes cost pair a + d := by
  have hsum : ∑ i ∈ nodes, ∑ k ∈ nodes with i < k, (if i = x ∧ k = y ∨ i = y ∧ k = x then d else 0) = d := by
    rcases lt_or_gt_of_ne hne with h | h
    · exact sum_one_pair hx hy h
    · simp only [or_comm]
      exact sum_one_pair hy hx h
  have htr : ∀ i ∈ nodes, ∑ k ∈ nodes with i < k, pair' i k (a i) (a k) = ∑ k ∈ nodes with i < k, pair i k (a i) (a k) +
        ∑ k ∈ nodes with i < k, (if i = x ∧ k = y ∨ i = y ∧ k = x then d else 0) := by
    intro i hi
    rw [← sum_add_distrib]
    exact sum_congr rfl fun k hk => hpr i hi k (mem_of_mem_filter k hk)
  rw [totalCost, totalCost, sum_congr rfl htr, sum_add_distrib, hsum, add_assoc]

/-- If no pair costs less than zero, the costs at the nodes are no more than the total. -/
lemma sum_cost_le_totalCost (hpr : ∀ i ∈ nodes, ∀ k ∈ nodes, 0 ≤ pair i k (a i) (a k)) :
    ∑ i ∈ nodes, cost i (a i) ≤ totalCost nodes cost pair a := by
  refine le_add_of_nonneg_right (sum_nonneg fun i hi => sum_nonneg fun k hk => ?_)
  exact hpr i hi k (mem_of_mem_filter k hk)

lemma totalCost_nonneg (hcs : ∀ i ∈ nodes, 0 ≤ cost i (a i))
    (hpr : ∀ i ∈ nodes, ∀ k ∈ nodes, 0 ≤ pair i k (a i) (a k)) : 0 ≤ totalCost nodes cost pair a :=
  (sum_nonneg hcs).trans (sum_cost_le_totalCost hpr)

end TensorToolchain.LayoutChoice

namespace TensorToolchain.LayoutChoice.Elimination

/-! ### What holds throughout an elimination

The nodes that are left form a simple graph: no node is its own neighbour, none is listed twice, and
of two neighbours each lists the other. They have costs for as many choices as at the start, and
each edge has a table of its own in either direction, of which one is the other transposed. A
retired node keeps its costs, its neighbours and the tables of its edges, and its neighbours are
left or were retired after it.
-/

open List

variable {γ : Type} {i j : ℕ} {s : Elimination ℚ}

def around (s : Elimination γ) (i : ℕ) : List ℕ := (s.adjacent.get? i).getD []

def prices (s : Elimination γ) (i : ℕ) : List γ := (s.costs.get? i).getD []

/-- The table of an edge, empty if the edge has none. -/
def tableAt (s : Elimination γ) (i k : ℕ) : CostTable γ := ((s.tableOf.get? (i, k)).map (s.tables.getD · [])).getD []

def cost (s : Elimination ℚ) (i p : ℕ) : ℚ := (s.prices i).getD p 0

/-- The cost of two choices at the ends of an edge. -/
def link (s : Elimination ℚ) (i k p q : ℕ) : ℚ := (s.tableAt i k).entry p q

/-- The cost of two choices at two nodes, zero if they are no neighbours. -/
def pair (s : Elimination ℚ) (i k p q : ℕ) : ℚ := if k ∈ s.around i then s.link i k p q else 0

def total (s : Elimination ℚ) (a : ℕ → ℕ) : ℚ := totalCost s.live.toFinset s.cost s.pair a

/-- The cost of a choice at a node, with those of its edges to neighbours that have chosen. -/
def beside (s : Elimination ℚ) (i p : ℕ) (a : ℕ → ℕ) : ℚ :=
  s.cost i p + ((s.around i).map fun k => s.link i k p (a k)).sum

/-- The node is left or retired. -/
abbrev Known (s : Elimination γ) (i : ℕ) : Prop := i ∈ s.live ∨ i ∈ s.stack

/-- The graph of the nodes that are left is simple, and the neighbours of a retired node are left or
were retired after it. -/
structure Linked (s : Elimination γ) : Prop where
  adjacent : ∀ i, s.Known i → s.adjacent.get? i = some (s.around i)
  nodup : ∀ i ∈ s.live, (s.around i).Nodup
  irrefl : ∀ i ∈ s.live, i ∉ s.around i
  mem_live : ∀ i ∈ s.live, ∀ k ∈ s.around i, k ∈ s.live
  symm : ∀ i ∈ s.live, ∀ k ∈ s.around i, i ∈ s.around k
  stack_nodup : s.stack.Nodup
  retired : ∀ i ∈ s.stack, i ∉ s.live
  later : ∀ before i after, s.stack = before ++ i :: after → ∀ k ∈ s.around i, k ∈ s.live ∨ k ∈ after

/-- Every node has costs of its choices and every edge a table of its own, and the two tables of an
edge between nodes that are left are transposes of each other. -/
structure Priced (size : ℕ → ℕ) (s : Elimination ℚ) : Prop where
  costs : ∀ i, s.Known i → s.costs.get? i = some (s.prices i)
  length : ∀ i, s.Known i → (s.prices i).length = size i
  size_pos : ∀ i, s.Known i → 0 < size i
  shaped : ∀ i, s.Known i → ∀ k ∈ s.around i, (s.tableAt i k).Shaped (size i) (size k)
  apart : ∀ i, s.Known i → ∀ k ∈ s.around i, ∀ j, s.Known j → ∀ l ∈ s.around j,
    s.tableOf.get? (i, k) = s.tableOf.get? (j, l) → i = j ∧ k = l
  cost_nonneg : ∀ i ∈ s.live, ∀ p, 0 ≤ s.cost i p
  link_nonneg : ∀ i ∈ s.live, ∀ k ∈ s.around i, ∀ p q, 0 ≤ s.link i k p q
  mirrored : ∀ i ∈ s.live, ∀ k ∈ s.around i, ∀ p q, s.link k i q p = s.link i k p q

/-- Everything that a step of an elimination relies on and hands on. -/
structure Sound (size : ℕ → ℕ) (s : Elimination ℚ) : Prop where
  filed : Filed s.buckets s.degree
  degree_eq : ∀ i ∈ s.live, s.degree.get? i = some (s.around i).length
  bound : ∀ i ∈ s.live, (s.around i).length + 2 ≤ s.buckets.length
  two_le : 2 ≤ s.buckets.length
  linked : s.Linked
  priced : s.Priced size

/-- A node has the same neighbours, costs and tables as before. -/
structure Keeps (s t : Elimination γ) (i : ℕ) : Prop where
  around_eq : t.around i = s.around i
  prices_eq : t.prices i = s.prices i
  tableAt_eq : ∀ k ∈ s.around i, t.tableAt i k = s.tableAt i k

lemma Keeps.refl (s : Elimination γ) (i : ℕ) : Keeps s s i := ⟨rfl, rfl, fun _ _ => rfl⟩

lemma Keeps.trans {s t u : Elimination γ} (h : Keeps s t i) (h' : Keeps t u i) : Keeps s u i := by
  refine ⟨h'.around_eq.trans h.around_eq, h'.prices_eq.trans h.prices_eq, fun k hk => ?_⟩
  rw [h'.tableAt_eq k (h.around_eq ▸ hk), h.tableAt_eq k hk]

lemma Keeps.beside_eq {t : Elimination ℚ} (h : Keeps s t i) (p : ℕ) (a : ℕ → ℕ) : t.beside i p a = s.beside i p a := by
  rw [beside, beside, cost, h.prices_eq, h.around_eq]
  congr 2
  refine map_congr_left fun k hk => ?_
  rw [link, link, h.tableAt_eq k hk]

/-- Two nodes become neighbours, with a table for either direction. -/
def withEdge (s : Elimination γ) (x y : ℕ) (table mirror : CostTable γ) : Elimination γ := { s with
  tables := s.tables ++ [table] ++ [mirror]
  tableOf := (s.tableOf.set (x, y) s.tables.length).set (y, x) (s.tables.length + 1)
  adjacent := (s.adjacent.set x (s.around x ++ [y])).set y (s.around y ++ [x]) }

section

variable {s : Elimination γ} {x y : ℕ} {table mirror : CostTable γ}

lemma adjacent_withEdge (j : ℕ) : (s.withEdge x y table mirror).adjacent.get? j =
    if j = y then some (s.around y ++ [x]) else if j = x then some (s.around x ++ [y]) else s.adjacent.get? j := by
  rw [withEdge, Keyed.get?_set, Keyed.get?_set]

lemma around_withEdge (j : ℕ) : (s.withEdge x y table mirror).around j =
    if j = y then s.around y ++ [x] else if j = x then s.around x ++ [y] else s.around j := by
  rw [around, adjacent_withEdge, apply_ite (Option.getD · []), apply_ite (Option.getD · [])]
  rfl

end

section Lookup

variable {size : ℕ → ℕ} {k : ℕ}

lemma Linked.neighbours_eq (h : s.Linked) (hi : s.Known i) : s.neighbours i = .ok (s.around i) := by
  rw [neighbours, h.adjacent i hi, orFail_some]

section

variable (h : s.Priced size) (hi : s.Known i)
include h hi

lemma Priced.costsOf_eq : s.costsOf i = .ok (s.prices i) := by rw [costsOf, h.costs i hi, orFail_some]

lemma Priced.exists_tableOf (hk : k ∈ s.around i) : ∃ id < s.tables.length, s.tableOf.get? (i, k) = some id ∧
      s.tables.getD id [] = s.tableAt i k := by
  have hlen := (h.shaped i hi k hk).1
  have hpos := h.size_pos i hi
  cases hid : s.tableOf.get? (i, k) with
  | none =>
    rw [tableAt, hid] at hlen
    exact absurd hlen (by simp; omega)
  | some id =>
    have htb : s.tables.getD id [] = s.tableAt i k := by rw [tableAt, hid]; rfl
    refine ⟨id, ?_, rfl, htb⟩
    by_contra hge
    rw [← htb, getD_eq_default _ _ (not_lt.1 hge)] at hlen
    exact absurd hlen (by simp; omega)

lemma Priced.table_eq (hk : k ∈ s.around i) : s.table i k = .ok (s.tableAt i k) := by
  obtain ⟨id, -, hid, htb⟩ := h.exists_tableOf hi hk
  rw [table, tableId, hid, orFail_some, ok_bind, htb]
  rfl

end

variable (hln : s.Linked) (hpr : s.Priced size) (hi : i ∈ s.live)
include hpr hi

lemma pair_nonneg (p q : ℕ) : 0 ≤ s.pair i k p q := by
  rw [pair]
  split_ifs with hk
  · exact hpr.link_nonneg i hi k hk p q
  · exact le_rfl

include hln

lemma pair_symm (hk : k ∈ s.live) (p q : ℕ) : s.pair k i q p = s.pair i k p q := by
  by_cases hik : k ∈ s.around i
  · rw [pair, pair, if_pos hik, if_pos (hln.symm i hi k hik), hpr.mirrored i hi k hik]
  · rw [pair, pair, if_neg hik, if_neg fun hki => hik (hln.symm k hk i hki)]

/-- What a node adds to the total: its own cost and those of its edges. -/
lemma total_eq (a : ℕ → ℕ) : s.total a = totalCost (s.live.toFinset.erase i) s.cost s.pair a + s.beside i (a i) a := by
  have hi' : i ∈ s.live.toFinset := mem_toFinset.2 hi
  have hsy : ∀ k ∈ s.live.toFinset.erase i, ∀ p q, s.pair k i q p = s.pair i k p q :=
    fun k hk => pair_symm hln hpr hi (mem_toFinset.1 (mem_of_mem_erase hk))
  have hed : ∑ k ∈ s.live.toFinset.erase i, s.pair i k (a i) (a k) =
      ((s.around i).map fun k => s.link i k (a i) (a k)).sum := by
    rw [← sum_toFinset _ (hln.nodup i hi)]
    refine (Finset.sum_subset_zero_on_sdiff (fun k hk => ?_) (fun k hk => ?_) fun k hk => ?_).symm
    · have hk := mem_toFinset.1 hk
      refine Finset.mem_erase.2 ⟨fun e => hln.irrefl i hi (e ▸ hk), ?_⟩
      exact mem_toFinset.2 (hln.mem_live i hi k hk)
    · rw [pair, if_neg fun hmem => (Finset.mem_sdiff.1 hk).2 (mem_toFinset.2 hmem)]
    · rw [pair, if_pos (mem_toFinset.1 hk)]
  rw [total, ← Finset.insert_erase hi', totalCost_insert (Finset.notMem_erase i _) hsy,
    Finset.erase_insert (Finset.notMem_erase i _), hed, beside]

end Lookup

/-! ### Retirement -/

/-- A node is taken out of the graph of those that are left, and nothing else changes. -/
structure Retires (s t : Elimination γ) (i : ℕ) : Prop where
  costs : t.costs = s.costs
  tables : t.tables = s.tables
  tableOf : t.tableOf = s.tableOf
  chosen : t.chosen = s.chosen
  optimal : t.optimal = s.optimal
  stack : t.stack = s.stack ++ [i]
  mem_live : ∀ j, j ∈ t.live ↔ j ∈ s.live ∧ j ≠ i
  around_live : ∀ j ∈ s.live, j ≠ i → t.around j = (s.around j).erase i
  around_retired : ∀ j, j ∈ s.stack ∨ j = i → t.around j = s.around j
  adjacent : ∀ j, s.Known j → t.adjacent.get? j = some (t.around j)

namespace Retires

variable {t : Elimination ℚ} {size : ℕ → ℕ} (h : Retires s t i)
include h

lemma prices_eq (j : ℕ) : t.prices j = s.prices j := by rw [prices, prices, h.costs]

lemma tableAt_eq (j k : ℕ) : t.tableAt j k = s.tableAt j k := by rw [tableAt, tableAt, h.tables, h.tableOf]

lemma cost_eq (j p : ℕ) : t.cost j p = s.cost j p := by rw [cost, cost, h.prices_eq]

lemma link_eq (j k p q : ℕ) : t.link j k p q = s.link j k p q := by rw [link, link, h.tableAt_eq]

lemma mem_stack : j ∈ t.stack ↔ j ∈ s.stack ∨ j = i := by rw [h.stack, mem_append, mem_singleton]

lemma known (hi : i ∈ s.live) : t.Known j ↔ s.Known j := by
  rw [Known, Known, h.mem_live, h.mem_stack]
  by_cases hj : j = i
  · simp [hj, hi]
  · simp [hj]

lemma mem_around {k : ℕ} (hj : s.Known j) (hk : k ∈ t.around j) : k ∈ s.around j := by
  by_cases hji : j = i
  · rwa [h.around_retired j (.inr hji)] at hk
  · rcases hj with hj | hj
    · rw [h.around_live j hj hji] at hk
      exact mem_of_mem_erase hk
    · rwa [h.around_retired j (.inl hj)] at hk

lemma linked (hs : s.Linked) (hi : i ∈ s.live) : t.Linked := by
  have her : ∀ j ∈ t.live, ∀ k, k ∈ t.around j ↔ k ≠ i ∧ k ∈ s.around j := by
    intro j hj k
    obtain ⟨hj, hji⟩ := (h.mem_live j).1 hj
    rw [h.around_live j hj hji, (hs.nodup j hj).mem_erase_iff]
  refine ⟨fun j hj => h.adjacent j ((h.known hi).1 hj), fun j hj => ?_, fun j hj => ?_,
    fun j hj k hk => ?_, fun j hj k hk => ?_, ?_, fun j hj => ?_, ?_⟩
  · obtain ⟨hj, hji⟩ := (h.mem_live j).1 hj
    rw [h.around_live j hj hji]
    exact (hs.nodup j hj).erase i
  · exact fun hmem => hs.irrefl j ((h.mem_live j).1 hj).1 ((her j hj j).1 hmem).2
  · obtain ⟨hki, hk⟩ := (her j hj k).1 hk
    exact (h.mem_live k).2 ⟨hs.mem_live j ((h.mem_live j).1 hj).1 k hk, hki⟩
  · obtain ⟨hki, hk⟩ := (her j hj k).1 hk
    obtain ⟨hj, hji⟩ := (h.mem_live j).1 hj
    have hk' := (h.mem_live k).2 ⟨hs.mem_live j hj k hk, hki⟩
    exact (her k hk' j).2 ⟨hji, hs.symm j hj k hk⟩
  · rw [h.stack]
    exact nodup_snoc hs.stack_nodup fun hm => hs.retired i hm hi
  · intro hlv
    obtain ⟨hlv, hji⟩ := (h.mem_live j).1 hlv
    exact hs.retired j ((h.mem_stack.1 hj).resolve_right hji) hlv
  · -- a neighbour that was left is left still, or is the node that comes last on the stack now
    have hlst : ∀ k ∈ s.around i, k ∈ t.live := by
      intro k hk
      refine (h.mem_live k).2 ⟨hs.mem_live i hi k hk, ?_⟩
      rintro rfl
      exact hs.irrefl k hi hk
    intro before j after hsp k hk
    rw [h.stack] at hsp
    rcases eq_nil_or_concat after with rfl | ⟨rest, r, rfl⟩
    · obtain ⟨-, hji⟩ := append_inj' hsp rfl
      obtain rfl : i = j := by simpa using hji
      rw [h.around_retired i (.inr rfl)] at hk
      exact .inl (hlst k hk)
    · rw [concat_eq_append, ← cons_append, ← append_assoc] at hsp
      obtain ⟨hst, hri⟩ := append_inj' hsp rfl
      obtain rfl : i = r := by simpa using hri
      rw [h.around_retired j (.inl (by simp [hst]))] at hk
      rcases hs.later before j rest hst k hk with hk | hk
      · by_cases hki : k = i
        · exact .inr (by simp [hki])
        · exact .inl ((h.mem_live k).2 ⟨hk, hki⟩)
      · exact .inr (by simp [hk])

lemma priced (hs : s.Priced size) (hi : i ∈ s.live) : t.Priced size := by
  refine ⟨fun j hj => ?_, fun j hj => ?_, fun j hj => hs.size_pos j ((h.known hi).1 hj),
    fun j hj k hk => ?_, fun j hj k hk l hl m hm hid => ?_, fun j hj p => ?_,
    fun j hj k hk p q => ?_, fun j hj k hk p q => ?_⟩
  · rw [h.prices_eq, h.costs]
    exact hs.costs j ((h.known hi).1 hj)
  · rw [h.prices_eq]
    exact hs.length j ((h.known hi).1 hj)
  · have hj := (h.known hi).1 hj
    rw [h.tableAt_eq]
    exact hs.shaped j hj k (h.mem_around hj hk)
  · have hj := (h.known hi).1 hj
    have hl := (h.known hi).1 hl
    rw [h.tableOf] at hid
    exact hs.apart j hj k (h.mem_around hj hk) l hl m (h.mem_around hl hm) hid
  · rw [h.cost_eq]
    exact hs.cost_nonneg j ((h.mem_live j).1 hj).1 p
  · have hj := ((h.mem_live j).1 hj).1
    rw [h.link_eq]
    exact hs.link_nonneg j hj k (h.mem_around (.inl hj) hk) p q
  · have hj := ((h.mem_live j).1 hj).1
    rw [h.link_eq, h.link_eq]
    exact hs.mirrored j hj k (h.mem_around (.inl hj) hk) p q

lemma keeps (hj : j ∈ t.stack) : Keeps s t j :=
  ⟨h.around_retired j (h.mem_stack.1 hj), h.prices_eq j, fun k _ => h.tableAt_eq j k⟩

/-- The total of what is left is the total before without the node and its edges. -/
lemma total_eq (a : ℕ → ℕ) : t.total a = totalCost (s.live.toFinset.erase i) s.cost s.pair a := by
  have hnd : t.live.toFinset = s.live.toFinset.erase i := by
    ext j
    rw [mem_toFinset, h.mem_live, Finset.mem_erase, mem_toFinset, and_comm]
  rw [total, hnd]
  refine totalCost_congr (fun j _ => h.cost_eq j _) fun j hj k hk => ?_
  obtain ⟨hji, hj⟩ := Finset.mem_erase.1 hj
  have hki := (Finset.mem_erase.1 hk).1
  have hmem : k ∈ t.around j ↔ k ∈ s.around j := by rw [h.around_live j (mem_toFinset.1 hj) hji, mem_erase_of_ne hki]
  by_cases hjk : k ∈ s.around j
  · rw [pair, pair, if_pos hjk, if_pos (hmem.2 hjk), h.link_eq]
  · rw [pair, pair, if_neg hjk, if_neg fun hc => hjk (hmem.1 hc)]

end Retires

/-- A node whose degree is right can be retired, and what is left is sound, if that holds of what
will be left of the other nodes. -/
lemma retire_eq_ok {size : ℕ → ℕ} (hfl : Filed s.buckets s.degree) (hln : s.Linked)
    (hpr : s.Priced size) (hi : i ∈ s.live) (hdg : s.degree.get? i = some (s.around i).length)
    (hot : ∀ k ∈ s.live, k ≠ i → k ∉ s.around i → s.degree.get? k = some (s.around k).length)
    (hbd : ∀ k ∈ s.live, ((s.around k).erase i).length + 2 ≤ s.buckets.length) :
    ∃ t, s.retire i = .ok t ∧ t.Sound size ∧ Retires s t i := by
  have hbc : ∀ k ∈ s.around i, k ∈ s.live ∧ ∃ others, s.adjacent.get? k = some others ∧
      i ∈ others ∧ others.length ≤ s.buckets.length := by
    intro k hk
    have hk' := hln.mem_live i hi k hk
    have hmem := hln.symm i hi k hk
    have hle := hbd k hk'
    rw [length_erase_of_mem hmem] at hle
    exact ⟨hk', s.around k, hln.adjacent k (.inl hk'), hmem, by omega⟩
  obtain ⟨adjacent, buckets, degree, hrt, hfl', hlen, hlv, had, hdg'⟩ :=
    hfl.retire_eq_ok hi (hln.adjacent i (.inl hi)) hdg (hln.nodup i hi) (hln.irrefl i hi) hbc
  let t : Elimination ℚ := { s with adjacent, buckets, degree, stack := s.stack ++ [i] }
  have har : ∀ j, s.Known j → t.adjacent.get? j =
      some (if j ∈ s.around i then (s.around j).erase i else s.around j) := by
    intro j hj
    rw [had j, hln.adjacent j hj]
    split_ifs <;> rfl
  have har' : ∀ j, s.Known j → t.around j = if j ∈ s.around i then (s.around j).erase i else s.around j := by
    intro j hj
    rw [around, har j hj, Option.getD_some]
  have h : Retires s t i := by
    refine ⟨rfl, rfl, rfl, rfl, rfl, rfl, hlv, fun j hj hji => ?_, fun j hj => ?_, fun j hj => ?_⟩
    · rw [har' j (.inl hj)]
      by_cases hij : j ∈ s.around i
      · rw [if_pos hij]
      · rw [if_neg hij, erase_of_not_mem fun hc => hij (hln.symm j hj i hc)]
    · rcases hj with hj | rfl
      · rw [har' j (.inr hj), if_neg fun hc => hln.retired j hj (hln.mem_live i hi j hc)]
      · rw [har' j (.inl hi), if_neg (hln.irrefl j hi)]
    · rw [har' j hj, har j hj]
  refine ⟨t, hrt, ⟨hfl', fun j hj => ?_, fun j hj => ?_, ?_, h.linked hln hi, h.priced hpr hi⟩, h⟩
  · obtain ⟨hj, hji⟩ := (hlv j).1 hj
    rw [hdg' j]
    by_cases hij : j ∈ s.around i
    · rw [if_pos hij]
      rfl
    · rw [if_neg hij, hot j hj hji hij, har' j (.inl hj), if_neg hij]
  · obtain ⟨hj, hji⟩ := (hlv j).1 hj
    rw [h.around_live j hj hji, show t.buckets.length = s.buckets.length from hlen]
    exact hbd j hj
  · have hle := hbd i hi
    rw [show t.buckets.length = s.buckets.length from hlen]
    omega

/-! ### Elimination of a node with one neighbour

Whatever is chosen elsewhere, the total of what is left is the total without the node plus the least
that the node and its edge can cost, up to the cost of an impossible layout.
-/

variable {t u : Elimination ℚ} {size : ℕ → ℕ} {k : ℕ}

/-- A step takes one node out; it leaves a sound state, and the retired nodes as they were. -/
structure Reduces (size : ℕ → ℕ) (s t : Elimination ℚ) (i : ℕ) : Prop where
  mem : i ∈ s.live
  sound : t.Sound size
  mem_live : ∀ j, j ∈ t.live ↔ j ∈ s.live ∧ j ≠ i
  stack : t.stack = s.stack ++ [i]
  keeps : ∀ j ∈ t.stack, Keeps s t j

/-- A step takes one node out and adds the least that the node and its edges can cost, for any
choices at the other nodes, to what is left. -/
structure Eliminates (size : ℕ → ℕ) (s t : Elimination ℚ) (i : ℕ) : Prop extends Reduces size s t i where
  chosen : t.chosen = s.chosen
  optimal : t.optimal = s.optimal
  total_eq : ∀ a, (∀ j ∈ s.live, a j < size j) →
    t.total a = totalCost (s.live.toFinset.erase i) s.cost s.pair a + cappedLeast (size i) (s.beside i · a)

/-! ### Raised costs -/

/-- The costs at some nodes are raised, and nothing else changes. -/
structure Raises (s t : Elimination ℚ) (nodes : List ℕ) (d : ℕ → ℕ → ℚ) : Prop where
  eq : ∃ costs, t = { s with costs }
  same : ∀ j ∉ nodes, t.costs.get? j = s.costs.get? j
  isSome : ∀ j, (t.costs.get? j).isSome = (s.costs.get? j).isSome
  length : ∀ j, (t.prices j).length = (s.prices j).length
  cost : ∀ j p, t.cost j p = s.cost j p + d j p

namespace Raises

variable {nodes : List ℕ} {d e : ℕ → ℕ → ℚ}

lemma refl (s : Elimination ℚ) (nodes : List ℕ) : Raises s s nodes fun _ _ => 0 :=
  ⟨⟨s.costs, rfl⟩, fun _ _ => rfl, fun _ => rfl, fun _ => rfl, fun _ _ => (add_zero _).symm⟩

section

variable (h : Raises s t nodes d)
include h

lemma trans (h' : Raises t u nodes e) : Raises s u nodes fun j p => d j p + e j p := by
  obtain ⟨costs, rfl⟩ := h.eq
  obtain ⟨costs', rfl⟩ := h'.eq
  refine ⟨⟨costs', rfl⟩, fun j hj => (h'.same j hj).trans (h.same j hj),
    fun j => (h'.isSome j).trans (h.isSome j), fun j => (h'.length j).trans (h.length j), fun j p => ?_⟩
  rw [h'.cost, h.cost, add_assoc]

lemma mono {nodes' : List ℕ} (hsub : ∀ j ∈ nodes, j ∈ nodes') : Raises s t nodes' d :=
  ⟨h.eq, fun j hj => h.same j fun hc => hj (hsub j hc), h.isSome, h.length, h.cost⟩

lemma congr (hd : ∀ j p, d j p = e j p) : Raises s t nodes e :=
  ⟨h.eq, h.same, h.isSome, h.length, fun j p => hd j p ▸ h.cost j p⟩

lemma linked (hs : s.Linked) : t.Linked := by
  obtain ⟨costs, rfl⟩ := h.eq
  exact { hs with }

lemma priced (hs : s.Priced size) (hd : ∀ j p, 0 ≤ d j p) : t.Priced size := by
  have hlen := h.length
  have hcs := h.cost
  have his := h.isSome
  obtain ⟨costs, rfl⟩ := h.eq
  refine ⟨fun j hj => ?_, fun j hj => (hlen j).trans (hs.length j hj), hs.size_pos, hs.shaped,
    hs.apart, fun j hj p => ?_, hs.link_nonneg, hs.mirrored⟩
  · have hsm := his j
    rw [hs.costs j hj] at hsm
    obtain ⟨xs, hxs⟩ := Option.isSome_iff_exists.1 hsm
    rw [prices, hxs, Option.getD_some]
  · rw [hcs]
    exact add_nonneg (hs.cost_nonneg j hj p) (hd j p)

lemma prices_eq (hj : j ∉ nodes) : t.prices j = s.prices j := by rw [prices, prices, h.same j hj]

lemma keeps (hj : j ∉ nodes) : Keeps s t j := by
  have hpr := h.prices_eq hj
  obtain ⟨costs, rfl⟩ := h.eq
  exact ⟨rfl, hpr, fun _ _ => rfl⟩

end

end Raises

lemma addCost_eq_ok {p : ℕ} (d : ℚ) (hp : p < (s.prices k).length) : ∃ t, s.addCost exactScale k p d = .ok t ∧
      Raises s t [k] fun j q => if j = k ∧ q = p then d else 0 := by
  have hk : s.costs.get? k = some (s.prices k) := by
    cases hget : s.costs.get? k with
    | none => simp [prices, hget] at hp
    | some xs => rw [prices, hget, Option.getD_some]
  have hget : ∀ j, (s.costs.set k ((s.prices k).set p ((s.prices k).getD p 0 + d))).get? j =
      if j = k then some ((s.prices k).set p ((s.prices k).getD p 0 + d)) else s.costs.get? j :=
    fun j => Keyed.get?_set ..
  refine ⟨{ s with costs := s.costs.set k ((s.prices k).set p ((s.prices k).getD p 0 + d)) },
    ?_, ⟨_, rfl⟩, fun j hj => ?_, fun j => ?_, fun j => ?_, fun j q => ?_⟩
  · rw [addCost, costsOf, hk, orFail_some, ok_bind, addAt_eq_ok d hp]
    rfl
  · rw [hget, if_neg fun e => hj (mem_singleton.2 e)]
  · rw [hget]
    split_ifs with hj
    · rw [hj, hk]
      rfl
    · rfl
  · rw [prices, hget]
    split_ifs with hj
    · rw [hj, Option.getD_some, length_set]
    · rfl
  · rw [cost, prices, hget]
    split_ifs with hj hq hq
    · rw [Option.getD_some, getD_set_add q d hp, if_pos hq.2, cost, hj]
    · rw [Option.getD_some, getD_set_add q d hp, if_neg fun e => hq ⟨hj, e⟩, cost, hj]
    · exact absurd hq.1 hj
    · rw [add_zero, cost, prices]

lemma foldlM_addCost_eq_ok {α : Type} {l : List α} {g : α → ℚ}
    {f : Elimination ℚ → α × ℕ → Except Fault (Elimination ℚ)} (hlen : l.length ≤ (s.prices k).length)
    (hf : ∀ t a q, a ∈ l → (∀ j, j ≠ k → t.costs.get? j = s.costs.get? j) → f t (a, q) = t.addCost exactScale k q (g a)) :
    ∃ t, l.zipIdx.foldlM f s = .ok t ∧ Raises s t [k] fun j q => if j = k then (l.map g).getD q 0 else 0 := by
  refine foldlM_zipIdx_eq_ok (fun seen t => Raises s t [k] fun j q =>
    if j = k then (seen.map g).getD q 0 else 0) ((Raises.refl s [k]).congr fun j p => by simp) ?_
  intro seen a t ha hlt ht
  have hot : ∀ j, j ≠ k → t.costs.get? j = s.costs.get? j := fun j hj => ht.same j fun e => hj (mem_singleton.1 e)
  obtain ⟨u, hu, hrs⟩ := addCost_eq_ok (g a) ((hlt.trans_le hlen).trans_eq (ht.length k).symm)
  refine ⟨u, (hf t a _ ha hot).trans hu, (ht.trans hrs).congr fun j p => ?_⟩
  rw [map_append, map_singleton, getD_concat]
  by_cases hj : j = k
  · simp [hj]
  · simp [hj]

/-! ### The elimination -/

lemma bestInRow_eq_ok {row own : List ℚ} (h : row.length = own.length) : bestInRow exactScale row own =
      .ok (cappedLeast own.length fun m => row.getD m 0 + own.getD m 0) := by
  have hen : ∀ p ∈ row.zipIdx, (do
      return exactScale.add p.1 (← orFail .badIndex own[p.2]?) : Except Fault ℚ) = .ok (p.1 + own.getD p.2 0) := by
    rintro ⟨x, m⟩ hp
    have hm : m < own.length := h ▸ (mk_mem_zipIdx_iff_getElem?.1 hp |> List.getElem?_eq_some_iff.1).1
    simp only [getElem?_eq_getElem hm, getD_eq_getElem own 0 hm, orFail_some, ok_bind]
    rfl
  rw [bestInRow, mapM_eq_ok hen, exactScale_least, map_zipIdx_eq row 0 fun x m => x + own.getD m 0, h]
  rfl

/-- Once the costs at its neighbours are raised, a node of a sound state can be retired. -/
lemma Sound.retire_raised (h : s.Sound size) (hi : i ∈ s.live) {d : ℕ → ℕ → ℚ}
    (ht : Raises s t (s.around i) d) (hd : ∀ j p, 0 ≤ d j p) :
    ∃ u, t.retire i = .ok u ∧ Reduces size s u i ∧ u.chosen = s.chosen ∧ u.optimal = s.optimal ∧
      ∀ a, u.total a = totalCost (s.live.toFinset.erase i) t.cost s.pair a := by
  have hln := ht.linked h.linked
  have hpr := ht.priced h.priced hd
  have hkp : ∀ j, j ∉ s.around i → Keeps s t j := fun j hj => ht.keeps hj
  obtain ⟨costs, rfl⟩ := ht.eq
  obtain ⟨u, hu, hsn, hrt⟩ := retire_eq_ok (s := { s with costs }) h.filed hln hpr
    hi (h.degree_eq i hi) (fun k hk _ _ => h.degree_eq k hk) fun k hk =>
      (Nat.add_le_add_right (length_erase_le ..) 2).trans (h.bound k hk)
  refine ⟨u, hu, ⟨hi, hsn, hrt.mem_live, hrt.stack, fun j hj => ?_⟩, hrt.chosen, hrt.optimal, hrt.total_eq⟩
  refine (hkp j fun hc => ?_).trans (hrt.keeps hj)
  rcases hrt.mem_stack.1 hj with hj | rfl
  · exact h.linked.retired j hj (h.linked.mem_live i hi j hc)
  · exact h.linked.irrefl j hi hc

/-- Eliminating a node with one neighbour adds the least that it can cost to what is left. -/
lemma Sound.reduceOne_eq_ok (h : s.Sound size) (hi : i ∈ s.live) (har : s.around i = [k]) :
    ∃ t, s.reduceOne exactScale i = .ok t ∧ Eliminates size s t i := by
  have hki : k ∈ s.around i := by simp [har]
  have hk : k ∈ s.live := h.linked.mem_live i hi k hki
  have hik : i ∈ s.around k := h.linked.symm i hi k hki
  have hne : i ≠ k := fun e => h.linked.irrefl i hi (e ▸ hki)
  have hsh := h.priced.shaped k (.inl hk) i hik
  have hown : (s.prices i).length = size i := h.priced.length i (.inl hi)
  let best : List ℚ → ℚ := fun row => cappedLeast (size i) fun m => row.getD m 0 + s.cost i m
  have hbs : ∀ q < size k, ((s.tableAt k i).map best).getD q 0 =
      cappedLeast (size i) fun m => s.link k i q m + s.cost i m := by
    intro q hq
    have hq : q < (s.tableAt k i).length := hsh.1.symm ▸ hq
    rw [getD_eq_getElem _ _ (by simpa using hq), getElem_map]
    simp only [best, link, CostTable.entry, getD_eq_getElem _ [] hq]
  obtain ⟨t, hfl, hrs⟩ := foldlM_addCost_eq_ok (g := best) (f := fun t p => do
      t.addCost exactScale k p.2 (← bestInRow exactScale p.1 (← t.costsOf i)))
    (by rw [hsh.1, h.priced.length k (.inl hk)]) (by
      intro t row q hrow hsm
      have hcs : t.costsOf i = .ok (s.prices i) := by rw [costsOf, hsm i hne, h.priced.costs i (.inl hi), orFail_some]
      have hlen : row.length = (s.prices i).length := (hsh.2 row hrow).trans hown.symm
      simp only [hcs, ok_bind, bestInRow_eq_ok hlen, hown]
      rfl)
  have hnn : ∀ j p, 0 ≤ if j = k then ((s.tableAt k i).map best).getD p 0 else 0 := by
    intro j p
    split_ifs
    · rcases lt_or_ge p (size k) with hp | hp
      · rw [hbs p hp]
        exact cappedLeast_nonneg fun m _ =>
          add_nonneg (h.priced.link_nonneg k hk i hik p m) (h.priced.cost_nonneg i hi m)
      · rw [getD_eq_default _ _ (by simpa [hsh.1] using hp)]
    · rfl
  obtain ⟨u, hu, hrd, hch, hop, htl⟩ := h.retire_raised hi (har ▸ hrs) hnn
  refine ⟨u, ?_, hrd, hch, hop, fun a ha => ?_⟩
  · rw [reduceOne, h.linked.neighbours_eq (.inl hi), har, ok_bind, head?_cons,
      orFail_some, ok_bind, h.priced.table_eq (.inl hk) hik, ok_bind]
    rw [hfl, ok_bind, hu]
  · have hbsd : ∀ p < size i, s.link k i (a k) p + s.cost i p = s.beside i p a := by
      intro p _
      rw [beside, har, h.priced.mirrored i hi k hki, add_comm]
      simp
    rw [htl, ← cappedLeast_congr hbsd, ← hbs (a k) (ha k hk)]
    refine totalCost_add_cost (Finset.mem_erase.2 ⟨hne.symm, mem_toFinset.2 hk⟩) fun j _ => ?_
    rw [hrs.cost]
    by_cases hj : j = k
    · simp [hj]
    · simp [hj]

end TensorToolchain.LayoutChoice.Elimination
