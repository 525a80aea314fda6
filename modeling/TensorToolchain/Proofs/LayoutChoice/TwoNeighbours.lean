import TensorToolchain.Proofs.LayoutChoice.Invariant

/-!
# Elimination of a node with two neighbours

The least cost that the node can contribute is added to the edge between its neighbours. If they
have an edge, its two tables are raised entry by entry; otherwise they get one. Either way the pair
costs so much more and nothing else changes.
-/

namespace TensorToolchain.LayoutChoice.Elimination

open List CostTable Option

variable {s t u : Elimination ℚ} {size : ℕ → ℕ} {i x y k p q j : ℕ} {d : ℕ → ℕ → ℚ} {delta : CostTable ℚ}

/-- Two tables are raised, the second by the transpose of what the first is raised by, and nothing
else changes. -/
structure Lifts (rows columns : ℕ) (s t : Elimination ℚ) (v w : ℕ) (d : ℕ → ℕ → ℚ) : Prop where
  eq : ∃ tables, t = { s with tables }
  length : t.tables.length = s.tables.length
  other : ∀ id, id ≠ v → id ≠ w → t.tables.getD id [] = s.tables.getD id []
  shaped : Shaped (t.tables.getD v []) rows columns
  shaped' : Shaped (t.tables.getD w []) columns rows
  entry : ∀ p q, entry (t.tables.getD v []) p q = entry (s.tables.getD v []) p q + d p q
  entry' : ∀ p q, CostTable.entry (t.tables.getD w []) q p = CostTable.entry (s.tables.getD w []) q p + d p q

namespace Lifts

variable {rows columns v w : ℕ} {e : ℕ → ℕ → ℚ}

lemma refl (hv : Shaped (s.tables.getD v []) rows columns) (hw : Shaped (s.tables.getD w []) columns rows) :
    Lifts rows columns s s v w fun _ _ => 0 :=
  ⟨⟨s.tables, rfl⟩, rfl, fun _ _ _ => rfl, hv, hw, fun _ _ => (add_zero _).symm, fun _ _ => (add_zero _).symm⟩

section

variable (h : Lifts rows columns s t v w d)
include h

lemma trans (h' : Lifts rows columns t u v w e) : Lifts rows columns s u v w fun p q => d p q + e p q := by
  obtain ⟨tables, rfl⟩ := h.eq
  obtain ⟨tables', rfl⟩ := h'.eq
  refine ⟨⟨tables', rfl⟩, h'.length.trans h.length, fun id hv hw => ?_, h'.shaped, h'.shaped',
    fun p q => ?_, fun p q => ?_⟩
  · rw [h'.other id hv hw, h.other id hv hw]
  · rw [h'.entry, h.entry, add_assoc]
  · rw [h'.entry', h.entry', add_assoc]

lemma congr (hd : ∀ p q, d p q = e p q) : Lifts rows columns s t v w e :=
  ⟨h.eq, h.length, h.other, h.shaped, h.shaped', fun p q => hd p q ▸ h.entry p q, fun p q => hd p q ▸ h.entry' p q⟩

lemma tableOf_eq : t.tableOf = s.tableOf := by
  obtain ⟨tables, rfl⟩ := h.eq
  rfl

end

end Lifts

section Tables

variable {rows columns v w : ℕ}

lemma addToTable_eq_ok {l : ℕ} (d : ℚ) (hid : s.tableOf.get? (k, l) = some v)
    (hv : Shaped (s.tables.getD v []) rows columns) (hp : p < rows) (hq : q < columns) :
    ∃ table, s.addToTable exactScale k l p q d = .ok { s with tables := s.tables.set v table } ∧
      Shaped table rows columns ∧ ∀ p' q', entry table p' q' =
        entry (s.tables.getD v []) p' q' + if p' = p ∧ q' = q then d else 0 := by
  obtain ⟨table, hadd, hsh, hen⟩ := addEntry_eq_ok hv d hp hq
  refine ⟨table, ?_, hsh, hen⟩
  rw [addToTable, tableId, hid, orFail_some, ok_bind, hadd]
  rfl

lemma lt_length_of_shaped (h : Shaped (s.tables.getD v []) rows columns)
    (hrw : 0 < rows) : v < s.tables.length := by
  by_contra hv
  rw [getD_eq_default _ _ (not_lt.1 hv)] at h
  exact absurd h.1 (by simp; omega)

/-- Where the two tables of an edge stand. -/
structure EdgeTables (rows columns : ℕ) (s : Elimination ℚ) (x y v w : ℕ) : Prop where
  left : s.tableOf.get? (x, y) = some v
  right : s.tableOf.get? (y, x) = some w
  ne : v ≠ w
  shaped : Shaped (s.tables.getD v []) rows columns
  shaped' : Shaped (s.tables.getD w []) columns rows

lemma Lifts.edgeTables (h : Lifts rows columns s t v w d) (hs : EdgeTables rows columns s x y v w) :
    EdgeTables rows columns t x y v w :=
  ⟨h.tableOf_eq.symm ▸ hs.left, h.tableOf_eq.symm ▸ hs.right, hs.ne, h.shaped, h.shaped'⟩

/-- Raise a row of the two tables between nodes. -/
def addRow (s : Elimination ℚ) (x y : ℕ) (row : List ℚ) (p : ℕ) : Except Fault (Elimination ℚ) :=
  row.zipIdx.foldlM (fun (s : Elimination ℚ) (d, q) => do
    (← s.addToTable exactScale x y p q d).addToTable exactScale y x q p d) s

section

variable (h : EdgeTables rows columns s x y v w)
include h

lemma EdgeTables.addToTables_eq_ok (d : ℚ) (hp : p < rows) (hq : q < columns) :
    ∃ t, (do (← s.addToTable exactScale x y p q d).addToTable exactScale y x q p d) = .ok t ∧
      Lifts rows columns s t v w fun p' q' => if p' = p ∧ q' = q then d else 0 := by
  have hv := lt_length_of_shaped h.shaped (by omega)
  have hw := lt_length_of_shaped h.shaped' (by omega)
  obtain ⟨first, hfst, hsh, hen⟩ := addToTable_eq_ok d h.left h.shaped hp hq
  let r : Elimination ℚ := { s with tables := s.tables.set v first }
  have hrw : r.tables.getD w [] = s.tables.getD w [] := by rw [getD_set, if_neg (h.ne ·.1.symm)]
  obtain ⟨second, hsc, hsh', hen'⟩ := addToTable_eq_ok (s := r) d h.right (hrw.symm ▸ h.shaped') hq hp
  have hget : ∀ id, ((s.tables.set v first).set w second).getD id [] =
      if id = w then second else if id = v then first else s.tables.getD id [] := by
    intro id
    rw [getD_set, getD_set, length_set]
    simp [hv, hw]
  refine ⟨_, by rw [hfst, ok_bind, hsc], ⟨_, rfl⟩, by simp [r], fun id hidv hidw => ?_, ?_,
    ?_, fun p' q' => ?_, fun p' q' => ?_⟩
  · rw [hget, if_neg hidw, if_neg hidv]
  · rwa [hget, if_neg h.ne, if_pos rfl]
  · rwa [hget, if_pos rfl]
  · rw [hget, if_neg h.ne, if_pos rfl, hen]
  · rw [hget, if_pos rfl, hen', hrw]
    simp [and_comm]

lemma EdgeTables.addRow_eq_ok {row : List ℚ} (hp : p < rows) (hrow : row.length = columns) :
    ∃ t, s.addRow x y row p = .ok t ∧
      Lifts rows columns s t v w fun p' q => if p' = p then row.getD q 0 else 0 := by
  refine foldlM_zipIdx_eq_ok (fun seen t => Lifts rows columns s t v w fun p' q =>
    if p' = p then seen.getD q 0 else 0) ((Lifts.refl h.shaped h.shaped').congr fun p' q => by simp) ?_
  intro seen d t _ hlt ht
  obtain ⟨u, hu, hlf⟩ := (ht.edgeTables h).addToTables_eq_ok d hp (hrow ▸ hlt)
  refine ⟨u, hu, (ht.trans hlf).congr fun p' q' => ?_⟩
  rw [getD_concat]
  by_cases hp' : p' = p
  · simp [hp']
  · simp [hp']

lemma EdgeTables.addTable_eq_ok (hdl : delta.Shaped rows columns) :
    ∃ t, delta.zipIdx.foldlM (fun s (row, p) => s.addRow x y row p) s = .ok t ∧
      Lifts rows columns s t v w delta.entry := by
  refine foldlM_zipIdx_eq_ok (fun seen t => Lifts rows columns s t v w (entry seen))
    ((Lifts.refl h.shaped h.shaped').congr fun p q => by simp [entry]) ?_
  intro seen row t hmem hlt ht
  obtain ⟨u, hu, hlf⟩ := (ht.edgeTables h).addRow_eq_ok (hdl.1 ▸ hlt) (hdl.2 row hmem)
  refine ⟨u, hu, (ht.trans hlf).congr fun p' q => ?_⟩
  rw [entry_concat]

end

end Tables

/-! ### A dearer pair -/

/-- A cost of the choices at two nodes, in either direction, and nothing elsewhere. -/
def between (x y : ℕ) (d : ℕ → ℕ → ℚ) (j k p q : ℕ) : ℚ :=
  if j = x ∧ k = y then d p q else if j = y ∧ k = x then d q p else 0

lemma between_symm (hne : x ≠ y) (d : ℕ → ℕ → ℚ) (j k p q : ℕ) : between x y d k j q p = between x y d j k p q := by
  by_cases hxy : j = x ∧ k = y
  · have hnot : ¬ (k = x ∧ j = y) := fun e => hne (hxy.1.symm.trans e.2)
    rw [between, if_neg hnot, if_pos hxy.symm, between, if_pos hxy]
  · by_cases hyx : j = y ∧ k = x
    · rw [between, if_pos hyx.symm, between, if_neg hxy, if_pos hyx]
    · rw [between, if_neg (hyx ·.symm), if_neg (hxy ·.symm), between, if_neg hxy, if_neg hyx]

lemma between_nonneg (hd : ∀ p q, 0 ≤ d p q) (j k p q : ℕ) : 0 ≤ between x y d j k p q := by
  rw [between]
  split_ifs
  · exact hd p q
  · exact hd q p
  · exact le_rfl

lemma between_eq_zero (hxy : ¬ (j = x ∧ k = y)) (hyx : ¬ (j = y ∧ k = x)) (p q : ℕ) : between x y d j k p q = 0 := by
  rw [between, if_neg hxy, if_neg hyx]

/-- Two nodes are neighbours whose pair of choices costs so much more than before, and nothing else
changes. -/
structure Joins (size : ℕ → ℕ) (s t : Elimination ℚ) (x y : ℕ) (d : ℕ → ℕ → ℚ) : Prop where
  linked : t.Linked
  costs : t.costs = s.costs
  buckets : t.buckets = s.buckets
  degree : t.degree = s.degree
  stack : t.stack = s.stack
  chosen : t.chosen = s.chosen
  optimal : t.optimal = s.optimal
  mem_around : ∀ j k, k ∈ t.around j ↔ k ∈ s.around j ∨ (j = x ∧ k = y) ∨ (j = y ∧ k = x)
  around_eq : ∀ j, j ≠ x → j ≠ y → t.around j = s.around j
  length_le : ∀ j, (t.around j).length ≤ (s.around j).length + 1
  apart : ∀ i, s.Known i → ∀ k ∈ t.around i, ∀ j, s.Known j → ∀ l ∈ t.around j,
    t.tableOf.get? (i, k) = t.tableOf.get? (j, l) → i = j ∧ k = l
  left : (t.tableAt x y).Shaped (size x) (size y) ∧ ∀ p q, t.link x y p q = s.pair x y p q + d p q
  right : (t.tableAt y x).Shaped (size y) (size x) ∧ ∀ p q, t.link y x p q = s.pair y x p q + d q p
  other : ∀ j, s.Known j → ∀ k ∈ s.around j, ¬ (j = x ∧ k = y) → ¬ (j = y ∧ k = x) → t.tableAt j k = s.tableAt j k

lemma Linked.two_neighbours (h : s.Linked) (hi : i ∈ s.live) (har : s.around i = [x, y]) :
    (x ∈ s.live ∧ i ∈ s.around x) ∧ (y ∈ s.live ∧ i ∈ s.around y) ∧ x ≠ y := by
  have hnd := h.nodup i hi
  have hlv := h.mem_live i hi
  have hsy := h.symm i hi
  simp only [har, forall_mem_cons] at hnd hlv hsy
  exact ⟨⟨hlv.1, hsy.1⟩, ⟨hlv.2.1, hsy.2.1⟩, by simpa using hnd⟩

namespace Joins

variable (h : Joins size s t x y d)
include h

lemma live_eq : t.live = s.live := by rw [live, live, h.buckets]

lemma cost_eq (j p : ℕ) : t.cost j p = s.cost j p := by rw [cost, cost, prices, prices, h.costs]

lemma table (hpriced : s.Priced size) (hj : s.Known j) (hk : k ∈ t.around j) :
    (t.tableAt j k).Shaped (size j) (size k) ∧ ∀ p q, t.link j k p q = s.pair j k p q + between x y d j k p q := by
  by_cases hxy : j = x ∧ k = y
  · obtain ⟨rfl, rfl⟩ := hxy
    exact ⟨h.left.1, fun p q => by rw [h.left.2, between, if_pos ⟨rfl, rfl⟩]⟩
  · by_cases hyx : j = y ∧ k = x
    · obtain ⟨rfl, rfl⟩ := hyx
      exact ⟨h.right.1, fun p q => by rw [h.right.2, between, if_neg hxy, if_pos ⟨rfl, rfl⟩]⟩
    · have hk := ((h.mem_around j k).1 hk).resolve_right (·.elim hxy hyx)
      have htb := h.other j hj k hk hxy hyx
      refine ⟨htb ▸ hpriced.shaped j hj k hk, fun p q => ?_⟩
      rw [between_eq_zero hxy hyx, add_zero, link, htb, pair, if_pos hk, link]

lemma pair_eq (hpriced : s.Priced size) (hj : j ∈ s.live) (k p q : ℕ) :
    t.pair j k p q = s.pair j k p q + between x y d j k p q := by
  rw [pair]
  split_ifs with hk
  · exact (h.table hpriced (.inl hj) hk).2 p q
  · have hk := fun e => hk ((h.mem_around j k).2 e)
    rw [pair, if_neg fun e => hk (.inl e),
      between_eq_zero (fun e => hk (.inr (.inl e))) (fun e => hk (.inr (.inr e))), add_zero]

lemma keeps (hj : s.Known j) (hx : j ≠ x) (hy : j ≠ y) : Keeps s t j := by
  refine ⟨h.around_eq j hx hy, ?_, fun k hk => h.other j hj k hk (hx ·.1) (hy ·.1)⟩
  rw [prices, prices, h.costs]

lemma priced (hln : s.Linked) (hpriced : s.Priced size) (hne : x ≠ y) (hd : ∀ p q, 0 ≤ d p q) : t.Priced size := by
  have hpr : ∀ j, t.prices j = s.prices j := fun j => by rw [prices, prices, h.costs]
  constructor
  all_goals simp only [Known, h.live_eq, h.stack, h.costs, hpr]
  · exact hpriced.costs
  · exact hpriced.length
  · exact hpriced.size_pos
  · exact fun j hj k hk => (h.table hpriced hj hk).1
  · exact h.apart
  · intro j hj p
    rw [h.cost_eq]
    exact hpriced.cost_nonneg j hj p
  · intro j hj k hk p q
    rw [(h.table hpriced (.inl hj) hk).2]
    exact add_nonneg (pair_nonneg hpriced hj p q) (between_nonneg hd j k p q)
  · intro j hj k hk p q
    have hk' : k ∈ s.live := h.live_eq ▸ h.linked.mem_live j (h.live_eq.symm ▸ hj) k hk
    have hjk : j ∈ t.around k := h.linked.symm j (h.live_eq.symm ▸ hj) k hk
    rw [(h.table hpriced (.inl hj) hk).2, (h.table hpriced (.inl hk') hjk).2,
      pair_symm hln hpriced hj hk', between_symm hne]

/-- Over nodes with both of the two among them, the total has risen by what their pair has. -/
lemma totalCost_eq (hpriced : s.Priced size) (hne : x ≠ y) {nodes : Finset ℕ} (hx : x ∈ nodes) (hy : y ∈ nodes)
    (hlv : ∀ j ∈ nodes, j ∈ s.live) (a : ℕ → ℕ) :
    totalCost nodes t.cost t.pair a = totalCost nodes s.cost s.pair a + d (a x) (a y) := by
  rw [totalCost_congr (fun j _ => h.cost_eq j _) fun _ _ _ _ => rfl]
  refine totalCost_add_pair hx hy hne fun j hj k _ => ?_
  rw [h.pair_eq hpriced (hlv j hj), between]
  by_cases hxy : j = x ∧ k = y
  · rw [if_pos hxy, if_pos (.inl hxy), hxy.1, hxy.2]
  · by_cases hyx : j = y ∧ k = x
    · rw [if_neg hxy, if_pos hyx, if_pos (.inr hyx), hyx.1, hyx.2]
    · rw [if_neg hxy, if_neg hyx, if_neg (·.elim hxy hyx)]

/-- Once the pair of its neighbours is dearer, a node of a sound state can be retired, and the total
of what is left has risen by what that pair has. -/
lemma retire (hs : s.Sound size) (hi : i ∈ s.live) (har : s.around i = [x, y]) (hd : ∀ p q, 0 ≤ d p q) :
    ∃ u, t.retire i = .ok u ∧ Reduces size s u i ∧ u.chosen = s.chosen ∧ u.optimal = s.optimal ∧ ∀ a, u.total a =
        totalCost (s.live.toFinset.erase i) s.cost s.pair a + d (a x) (a y) := by
  obtain ⟨⟨hx, hxi⟩, ⟨hy, hyi⟩, hne⟩ := hs.linked.two_neighbours hi har
  have hix : i ≠ x := fun e => hs.linked.irrefl x hx (e ▸ hxi)
  have hiy : i ≠ y := fun e => hs.linked.irrefl y hy (e ▸ hyi)
  have hkp : t.around i = s.around i := h.around_eq i hix hiy
  have hpriced := h.priced hs.linked hs.priced hne hd
  have hfl : Filed t.buckets t.degree := by
    rw [h.buckets, h.degree]
    exact hs.filed
  have hle : ∀ k, ((t.around k).erase i).length ≤ (s.around k).length := by
    intro k
    by_cases hki : k = x ∨ k = y
    · -- the list of a neighbour may have grown by one, but it loses the node
      have hmem : i ∈ t.around k := by
        refine (h.mem_around k i).2 (.inl (hs.linked.symm i hi k ?_))
        rw [har, mem_cons, mem_singleton]
        exact hki
      have hle := h.length_le k
      rw [length_erase_of_mem hmem]
      omega
    · rw [not_or] at hki
      rw [h.around_eq k hki.1 hki.2]
      exact length_erase_le
  obtain ⟨u, hu, hsn, hrt⟩ := retire_eq_ok hfl h.linked hpriced (h.live_eq.symm ▸ hi)
    (by rw [h.degree, hkp, hs.degree_eq i hi])
    (fun k hk _ hki => by
      rw [hkp, har, mem_cons, mem_singleton, not_or] at hki
      rw [h.degree, h.around_eq k hki.1 hki.2, hs.degree_eq k (h.live_eq ▸ hk)])
    (fun k hk => by
      rw [h.buckets]
      exact (Nat.add_le_add_right (hle k) 2).trans (hs.bound k (h.live_eq ▸ hk)))
  refine ⟨u, hu, ⟨hi, hsn, fun j => ?_, ?_, fun j hj => ?_⟩, ?_, ?_, fun a => ?_⟩
  · rw [hrt.mem_live, h.live_eq]
  · rw [hrt.stack, h.stack]
  · refine .trans ?_ (hrt.keeps hj)
    rcases hrt.mem_stack.1 hj with hj | rfl
    · rw [h.stack] at hj
      exact h.keeps (.inr hj) (fun e => hs.linked.retired j hj (e ▸ hx)) fun e => hs.linked.retired j hj (e ▸ hy)
    · exact h.keeps (.inl hi) hix hiy
  · rw [hrt.chosen, h.chosen]
  · rw [hrt.optimal, h.optimal]
  · rw [hrt.total_eq, h.live_eq]
    exact h.totalCost_eq hs.priced hne (Finset.mem_erase.2 ⟨hix.symm, mem_toFinset.2 hx⟩)
      (Finset.mem_erase.2 ⟨hiy.symm, mem_toFinset.2 hy⟩)
      (fun j hj => mem_toFinset.1 (mem_of_mem_erase hj)) a

end Joins

/-- Two nodes that have an edge get a dearer pair when its tables are raised. -/
lemma Lifts.joins {v w : ℕ} (h : Lifts (size x) (size y) s t v w d) (hln : s.Linked)
    (hpriced : s.Priced size) (hx : x ∈ s.live) (hxy : y ∈ s.around x)
    (hv : s.tableOf.get? (x, y) = some v) (hw : s.tableOf.get? (y, x) = some w) : Joins size s t x y d := by
  have hy : y ∈ s.live := hln.mem_live x hx y hxy
  have hyx : x ∈ s.around y := hln.symm x hx y hxy
  have htb := h.tableOf_eq
  have htbs : t.tableAt x y = t.tables.getD v [] ∧ t.tableAt y x = t.tables.getD w [] := by
    rw [tableAt, tableAt, htb, hv, hw]
    exact ⟨rfl, rfl⟩
  have hbef : s.tableAt x y = s.tables.getD v [] ∧ s.tableAt y x = s.tables.getD w [] := by
    rw [tableAt, tableAt, hv, hw]
    exact ⟨rfl, rfl⟩
  have hlf : ∀ p q, t.link x y p q = s.pair x y p q + d p q := fun p q => by
    rw [link, htbs.1, h.entry, pair, if_pos hxy, link, hbef.1]
  have hrg : ∀ p q, t.link y x p q = s.pair y x p q + d q p := fun p q => by
    rw [link, htbs.2, h.entry', pair, if_pos hyx, link, hbef.2]
  -- the tables of one edge are not those of another
  have hot : ∀ j, s.Known j → ∀ k ∈ s.around j, ¬ (j = x ∧ k = y) → ¬ (j = y ∧ k = x) →
      t.tableAt j k = s.tableAt j k := by
    intro j hj k hk hjxy hjyx
    obtain ⟨id, -, hid, htbl⟩ := hpriced.exists_tableOf hj hk
    have hidv : id ≠ v := fun e => hjxy (hpriced.apart j hj k hk x (.inl hx) y hxy (by rw [hid, hv, e]))
    have hidw : id ≠ w := fun e => hjyx (hpriced.apart j hj k hk y (.inl hy) x hyx (by rw [hid, hw, e]))
    rw [tableAt, htb, hid, map_some, getD_some, h.other id hidv hidw, htbl]
  obtain ⟨tables, rfl⟩ := h.eq
  refine ⟨{ hln with }, rfl, rfl, rfl, rfl, rfl, rfl,
    fun j k => ⟨.inl, ?_⟩, fun j _ _ => rfl, fun j => Nat.le_succ _, hpriced.apart,
    ⟨htbs.1 ▸ h.shaped, hlf⟩, ⟨htbs.2 ▸ h.shaped', hrg⟩, hot⟩
  rintro (hk | ⟨rfl, rfl⟩ | ⟨rfl, rfl⟩)
  · exact hk
  · exact hxy
  · exact hyx

section NewEdge

variable {table mirror : CostTable ℚ}

lemma addEdge_eq_withEdge (hln : s.Linked) (hx : x ∈ s.live) (hy : y ∈ s.live) (hne : x ≠ y)
    (hmr : table.transposed = .ok mirror) : s.addEdge x y table = .ok (s.withEdge x y table mirror) := by
  have har : s.adjacent.get? x = some (s.around x) := hln.adjacent x (.inl hx)
  have harn : (s.adjacent.set x (s.around x ++ [y])).get? y = some (s.around y) := by
    rw [Keyed.get?_set_of_ne _ _ hne.symm, hln.adjacent y (.inl hy)]
  simp only [addEdge, hmr, ok_bind, setTable, neighbours, har, orFail_some, harn, length_append, length_singleton]
  rfl

lemma mem_around_withEdge (hne : x ≠ y) : k ∈ (s.withEdge x y table mirror).around j ↔
      k ∈ s.around j ∨ (j = x ∧ k = y) ∨ (j = y ∧ k = x) := by
  rw [around_withEdge]
  by_cases hj : j = x
  · simp [hj, hne]
  · by_cases hj' : j = y
    · simp [hj', hne.symm]
    · simp [hj, hj']

lemma linked_withEdge (hln : s.Linked) (hx : x ∈ s.live) (hy : y ∈ s.live) (hne : x ≠ y)
    (hxy : y ∉ s.around x) : (s.withEdge x y table mirror).Linked := by
  have hyx : x ∉ s.around y := fun hc => hxy (hln.symm y hy x hc)
  have hst : ∀ j ∈ s.stack, (s.withEdge x y table mirror).around j = s.around j := by
    intro j hj
    have hlv := hln.retired j hj
    rw [around_withEdge, if_neg fun e : j = y => hlv (e ▸ hy), if_neg fun e : j = x => hlv (e ▸ hx)]
  refine ⟨fun j hj => ?_, fun j hj => ?_, fun j hj => ?_, fun j hj k hk => ?_, fun j hj k hk => ?_,
    hln.stack_nodup, hln.retired, fun before j after hsp k hk => ?_⟩
  · rw [around_withEdge, adjacent_withEdge, hln.adjacent j hj, apply_ite some, apply_ite some]
  · rw [around_withEdge]
    split_ifs
    · exact nodup_snoc (hln.nodup y hy) hyx
    · exact nodup_snoc (hln.nodup x hx) hxy
    · exact hln.nodup j hj
  · rw [mem_around_withEdge hne]
    rintro (hmem | ⟨rfl, rfl⟩ | ⟨rfl, rfl⟩)
    · exact hln.irrefl j hj hmem
    · exact hne rfl
    · exact hne rfl
  · rcases (mem_around_withEdge hne).1 hk with hk | ⟨-, rfl⟩ | ⟨-, rfl⟩
    · exact hln.mem_live j hj k hk
    · exact hy
    · exact hx
  · rw [mem_around_withEdge hne] at hk ⊢
    rcases hk with hk | hk | hk
    · exact .inl (hln.symm j hj k hk)
    · exact .inr (.inr hk.symm)
    · exact .inr (.inl hk.symm)
  · have hj : j ∈ s.stack := by
      rw [show s.stack = _ from hsp]
      simp
    rw [hst j hj] at hk
    exact hln.later before j after hsp k hk

lemma tableOf_withEdge (j k : ℕ) : (s.withEdge x y table mirror).tableOf.get? (j, k) =
    if j = y ∧ k = x then some (s.tables.length + 1)
    else if j = x ∧ k = y then some s.tables.length else s.tableOf.get? (j, k) := by
  rw [withEdge, Keyed.get?_set, Keyed.get?_set]
  simp

lemma tableAt_withEdge_left (hne : x ≠ y) : (s.withEdge x y table mirror).tableAt x y = table := by
  rw [tableAt, tableOf_withEdge, if_neg (hne ·.1), if_pos ⟨rfl, rfl⟩, withEdge]
  simp

lemma tableAt_withEdge_right : (s.withEdge x y table mirror).tableAt y x = mirror := by
  rw [tableAt, tableOf_withEdge, if_pos ⟨rfl, rfl⟩, withEdge]
  simp

lemma not_new (hk : k ∈ s.around j) (hxy : y ∉ s.around x) : ¬ (j = x ∧ k = y) := fun e => hxy (e.1 ▸ e.2 ▸ hk)

lemma tableAt_withEdge_of_mem (hpriced : s.Priced size) (hj : s.Known j) (hk : k ∈ s.around j) (hxy : y ∉ s.around x)
    (hyx : x ∉ s.around y) : (s.withEdge x y table mirror).tableAt j k = s.tableAt j k := by
  obtain ⟨id, hlt, hid, htb⟩ := hpriced.exists_tableOf hj hk
  rw [tableAt, tableOf_withEdge, if_neg (not_new hk hyx), if_neg (not_new hk hxy), hid, map_some,
    getD_some, ← htb, withEdge, append_assoc, getD_append _ _ _ _ hlt]

section

variable (hpriced : s.Priced size) (hne : x ≠ y) (hxy : y ∉ s.around x) (hyx : x ∉ s.around y)
include hpriced hne hxy hyx

/-- An edge names a table that stood there before, unless it is new and its table is last. -/
lemma tableOf_withEdge_cases (hj : s.Known j) (hk : k ∈ (s.withEdge x y table mirror).around j) :
    ∃ id, (s.withEdge x y table mirror).tableOf.get? (j, k) = some id ∧
      (k ∈ s.around j ∧ s.tableOf.get? (j, k) = some id ∧ id < s.tables.length ∨
        j = x ∧ k = y ∧ id = s.tables.length ∨ j = y ∧ k = x ∧ id = s.tables.length + 1) := by
  rcases (mem_around_withEdge hne).1 hk with hmem | hjk | hjk
  · obtain ⟨id, hlt, hid, -⟩ := hpriced.exists_tableOf hj hmem
    refine ⟨id, ?_, .inl ⟨hmem, hid, hlt⟩⟩
    rw [tableOf_withEdge, if_neg (not_new hmem hyx), if_neg (not_new hmem hxy), hid]
  · refine ⟨_, ?_, .inr (.inl ⟨hjk.1, hjk.2, rfl⟩)⟩
    rw [tableOf_withEdge, if_neg fun e => hne (hjk.1.symm.trans e.1), if_pos hjk]
  · refine ⟨_, ?_, .inr (.inr ⟨hjk.1, hjk.2, rfl⟩)⟩
    rw [tableOf_withEdge, if_pos hjk]

lemma apart_withEdge {l m : ℕ} (hj : s.Known j) (hk : k ∈ (s.withEdge x y table mirror).around j)
    (hl : s.Known l) (hm : m ∈ (s.withEdge x y table mirror).around l)
    (h : (s.withEdge x y table mirror).tableOf.get? (j, k) = (s.withEdge x y table mirror).tableOf.get? (l, m)) :
    j = l ∧ k = m := by
  obtain ⟨v, hv, hvc⟩ := tableOf_withEdge_cases hpriced hne hxy hyx hj hk
  obtain ⟨w, hw, hwc⟩ := tableOf_withEdge_cases hpriced hne hxy hyx hl hm
  rw [hv, hw, some.injEq] at h
  rcases hvc with ⟨hk, hsv, hlt⟩ | hvn
  · rcases hwc with ⟨hm, hsw, -⟩ | hwn
    · exact hpriced.apart j hj k hk l hl m hm (by rw [hsv, hsw, h])
    · omega
  · rcases hwc with ⟨-, -, hlt⟩ | hwn
    · omega
    · omega

end

/-- Two nodes that have no edge get a dearer pair when they get one. -/
lemma addEdge_eq_ok (hln : s.Linked) (hpriced : s.Priced size) (hx : x ∈ s.live)
    (hy : y ∈ s.live) (hne : x ≠ y) (hxy : y ∉ s.around x)
    (htb : table.Shaped (size x) (size y)) : ∃ t, s.addEdge x y table = .ok t ∧ Joins size s t x y table.entry := by
  have hyx : x ∉ s.around y := fun hc => hxy (hln.symm y hy x hc)
  obtain ⟨mirror, hmr, hsh, hen⟩ := transposed_eq_ok htb (hpriced.size_pos x (.inl hx))
  have hlf : (s.withEdge x y table mirror).tableAt x y = table := tableAt_withEdge_left hne
  have hrg : (s.withEdge x y table mirror).tableAt y x = mirror := tableAt_withEdge_right
  refine ⟨_, addEdge_eq_withEdge hln hx hy hne hmr, linked_withEdge hln hx hy hne hxy, rfl, rfl, rfl, rfl, rfl, rfl,
    fun j k => mem_around_withEdge hne, fun j hjx hjy => ?_, fun j => ?_,
    fun i hi k hk j hj l hl hid => apart_withEdge hpriced hne hxy hyx hi hk hj hl hid,
    ⟨by rwa [hlf], fun p q => ?_⟩, ⟨by rwa [hrg], fun p q => ?_⟩,
    fun j hj k hk _ _ => tableAt_withEdge_of_mem hpriced hj hk hxy hyx⟩
  · rw [around_withEdge, if_neg hjy, if_neg hjx]
  · rw [around_withEdge]
    split_ifs with hjy hjx
    · simp [hjy]
    · simp [hjx]
    · omega
  · rw [link, hlf, pair, if_neg hxy, zero_add]
  · rw [link, hrg, pair, if_neg hyx, zero_add, hen]

end NewEdge

/-! ### The elimination -/

lemma bestOfPair_eq_ok {rowX rowY own : List ℚ} (hx : rowX.length = own.length) (hy : rowY.length = own.length) :
    bestOfPair exactScale rowX rowY own = .ok (cappedLeast own.length fun m =>
      rowX.getD m 0 + rowY.getD m 0 + own.getD m 0) := by
  have hen : ∀ p ∈ own.zipIdx, (do
      let x ← orFail .badIndex rowX[p.2]?
      let y ← orFail .badIndex rowY[p.2]?
      return exactScale.add (exactScale.add x y) p.1 : Except Fault ℚ) =
        .ok (rowX.getD p.2 0 + rowY.getD p.2 0 + p.1) := by
    rintro ⟨c, m⟩ hp
    have hm : m < own.length := (List.getElem?_eq_some_iff.1 (mk_mem_zipIdx_iff_getElem?.1 hp)).1
    have hmx : m < rowX.length := hx.symm ▸ hm
    have hmy : m < rowY.length := hy.symm ▸ hm
    simp only [getElem?_eq_getElem hmx, getElem?_eq_getElem hmy,
      getD_eq_getElem rowX 0 hmx, getD_eq_getElem rowY 0 hmy, orFail_some, ok_bind]
    rfl
  rw [bestOfPair, mapM_eq_ok hen, ok_bind, exactScale_least, cappedLeast,
    map_zipIdx_eq own 0 fun c m => rowX.getD m 0 + rowY.getD m 0 + c]
  rfl

/-- For each pair of choices at its two neighbours, the least that a node can cost. -/
def leastThrough (s : Elimination ℚ) (i x y : ℕ) : CostTable ℚ :=
  (s.tableAt x i).map fun rowX => (s.tableAt y i).map fun rowY =>
    cappedLeast (s.prices i).length fun m => rowX.getD m 0 + rowY.getD m 0 + s.cost i m

lemma leastThrough_shaped (hx : (s.tableAt x i).length = size x)
    (hy : (s.tableAt y i).length = size y) : (s.leastThrough i x y).Shaped (size x) (size y) := by
  refine ⟨by rw [leastThrough, length_map, hx], fun row hrow => ?_⟩
  obtain ⟨rowX, -, rfl⟩ := mem_map.1 hrow
  rw [length_map, hy]

lemma leastThrough_entry (hp : p < (s.tableAt x i).length) (hq : q < (s.tableAt y i).length) :
    (s.leastThrough i x y).entry p q =
      cappedLeast (s.prices i).length fun m => s.link x i p m + s.link y i q m + s.cost i m := by
  have hrow : (s.leastThrough i x y).getD p [] = (s.tableAt y i).map fun rowY =>
      cappedLeast (s.prices i).length fun m => s.link x i p m + rowY.getD m 0 + s.cost i m := by
    rw [leastThrough, getD_eq_getElem _ _ (by simpa using hp), getElem_map]
    simp only [link, entry, getD_eq_getElem _ [] hp]
  rw [entry, hrow, getD_eq_getElem _ _ (by simpa using hq), getElem_map]
  simp only [link, entry, getD_eq_getElem _ [] hq]

/-- The costs through a node are added to the edge between its neighbours, old or new. -/
lemma joins_leastThrough (hln : s.Linked) (hpriced : s.Priced size) (hx : x ∈ s.live)
    (hy : y ∈ s.live) (hne : x ≠ y) (hdl : delta.Shaped (size x) (size y)) : ∃ t, (if (s.around y).contains x then
        delta.zipIdx.foldlM (fun s (row, p) => s.addRow x y row p) s
      else s.addEdge x y delta) = .ok t ∧ Joins size s t x y delta.entry := by
  by_cases hyx : x ∈ s.around y
  · have hxy : y ∈ s.around x := hln.symm y hy x hyx
    obtain ⟨v, -, hv, hvt⟩ := hpriced.exists_tableOf (.inl hx) hxy
    obtain ⟨w, -, hw, hwt⟩ := hpriced.exists_tableOf (.inl hy) hyx
    have hvw : v ≠ w := fun e => hne (hpriced.apart x (.inl hx) y hxy y (.inl hy) x hyx (by rw [hv, hw, e])).1
    have htbs : EdgeTables (size x) (size y) s x y v w := ⟨hv, hw, hvw, hvt.symm ▸ hpriced.shaped x (.inl hx) y hxy,
      hwt.symm ▸ hpriced.shaped y (.inl hy) x hyx⟩
    obtain ⟨t, hfl, hlf⟩ := htbs.addTable_eq_ok hdl
    refine ⟨t, ?_, hlf.joins hln hpriced hx hxy hv hw⟩
    rw [if_pos (contains_iff_mem.2 hyx), hfl]
  · have hxy : y ∉ s.around x := fun hc => hyx (hln.symm x hx y hc)
    obtain ⟨t, hadd, hjn⟩ := addEdge_eq_ok hln hpriced hx hy hne hxy hdl
    exact ⟨t, by rw [if_neg fun hc => hyx (contains_iff_mem.1 hc), hadd], hjn⟩

/-- Eliminating a node with two neighbours adds the least that it can cost to what is left. -/
lemma Sound.reduceTwo_eq_ok (h : s.Sound size) (hi : i ∈ s.live) (har : s.around i = [x, y]) :
    ∃ t, s.reduceTwo exactScale i = .ok t ∧ Eliminates size s t i := by
  obtain ⟨⟨hx, hix⟩, ⟨hy, hiy⟩, hne⟩ := h.linked.two_neighbours hi har
  have hsh := h.priced.shaped x (.inl hx) i hix
  have hshp := h.priced.shaped y (.inl hy) i hiy
  have hown : (s.prices i).length = size i := h.priced.length i (.inl hi)
  have hdl : ((s.tableAt x i).mapM fun rowX => (s.tableAt y i).mapM fun rowY =>
      bestOfPair exactScale rowX rowY (s.prices i)) = .ok (s.leastThrough i x y) := by
    refine mapM_eq_ok fun rowX hrw => mapM_eq_ok fun rowY hrwy => ?_
    exact bestOfPair_eq_ok ((hsh.2 rowX hrw).trans hown.symm) ((hshp.2 rowY hrwy).trans hown.symm)
  have hen : ∀ p < size x, ∀ q < size y, (s.leastThrough i x y).entry p q =
      cappedLeast (size i) fun m => s.link x i p m + s.link y i q m + s.cost i m := by
    intro p hp q hq
    rw [leastThrough_entry (hsh.1.symm ▸ hp) (hshp.1.symm ▸ hq), hown]
  have hsha := leastThrough_shaped hsh.1 hshp.1
  have hnn : ∀ p q, 0 ≤ (s.leastThrough i x y).entry p q := by
    intro p q
    by_cases hpq : p < size x ∧ q < size y
    · rw [hen p hpq.1 q hpq.2]
      exact cappedLeast_nonneg fun m _ =>
        add_nonneg (add_nonneg (h.priced.link_nonneg x hx i hix p m)
          (h.priced.link_nonneg y hy i hiy q m)) (h.priced.cost_nonneg i hi m)
    · rw [hsha.entry_of_le (by omega)]
  obtain ⟨t, ht, hjn⟩ := joins_leastThrough h.linked h.priced hx hy hne hsha
  obtain ⟨u, hu, hrd, hch, hop, htl⟩ := hjn.retire h hi har hnn
  refine ⟨u, ?_, hrd, hch, hop, fun a ha => ?_⟩
  · rw [reduceTwo, h.linked.neighbours_eq (.inl hi), ok_bind, har]
    simp only [h.priced.table_eq (.inl hx) hix, h.priced.table_eq (.inl hy) hiy,
      h.priced.costsOf_eq (.inl hi), hdl, ok_bind, beq_eq_false_iff_ne.2 hne,
      h.linked.neighbours_eq (.inl hy), Bool.false_eq_true, if_false]
    have hnx := fun (r : Except Fault _) (hr : r = .ok t) =>
      show (r >>= (·.retire i)) = .ok u by rw [hr, ok_bind, hu]
    split_ifs at ht ⊢
    · exact hnx _ ht
    · exact hnx _ ht
  · have hbs : ∀ m < size i, s.link x i (a x) m + s.link y i (a y) m + s.cost i m = s.beside i m a := by
      intro m _
      rw [beside, har, ← h.priced.mirrored x hx i hix, ← h.priced.mirrored y hy i hiy, add_comm]
      simp
    rw [htl, hen (a x) (ha x hx) (a y) (ha y hy), cappedLeast_congr hbs]

end TensorToolchain.LayoutChoice.Elimination
