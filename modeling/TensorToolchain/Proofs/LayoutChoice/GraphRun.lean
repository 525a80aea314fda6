import TensorToolchain.Proofs.LayoutChoice.GraphProblem
import TensorToolchain.Proofs.LayoutChoice.Optimality

/-!
# Choosing the layouts of a graph

If no table of an edge stands in the way of another, the state before the first step of a run is a
problem with the costs of the graph, and the choices made have the least total cost whenever no
choice had to be fixed. In general they have not: a table is lost if one is given for the opposite
edge too, and edges that share a table are all changed when one of them is.
-/

namespace TensorToolchain.LayoutChoice.GraphProblem

open List Elimination Keyed CostTable

variable {p : GraphProblem} {i k : ℕ}

/-- The joining keys with their inputs. -/
def joints (p : GraphProblem) : List (ℕ × List ℕ) := p.innerLinks.entries.filter (p.graph.joins ·.1)

/-- The states with the given tables, with those of the joining nodes, and with those of the
opposite edges. -/
structure Prepared (p : GraphProblem) (s t u : Elimination ℚ) : Prop where
  grows : Grows p.start s
  given : ∀ e, (s.tableOf.get? e).map (s.tables.getD · []) = (ofList p.given).get? e
  joined : Joined exactScale p.costs s p.joints t
  reversed : Reversed t t.tableOf.entries u
  proper : p.Proper
  inside : p.Inside

lemma mem_joints (hks : p.keys.Nodup) {ins : List ℕ} :
    (k, ins) ∈ p.joints ↔ k ∈ p.keys ∧ p.graph.joins k ∧ ins = p.inner k := by
  rw [joints, mem_filter]
  constructor
  · rintro ⟨hmem, hjn⟩
    have hget := get?_of_mem (p.keys_innerLinks.symm ▸ hks) hmem
    have hk : k ∈ p.keys := p.keys_innerLinks ▸ mem_keys_of_get? hget
    rw [get?_innerLinks hk, Option.some.injEq] at hget
    exact ⟨hk, hjn, hget.symm⟩
  · rintro ⟨hk, hjn, rfl⟩
    exact ⟨mem_of_get? (get?_innerLinks hk), hjn⟩

/-- The first input of a joining key is the one that its inputs are brought to. -/
lemma meets_of_inner {first : ℕ} {rest : List ℕ} (hjn : p.graph.joins k)
    (hin : p.inner k = first :: rest) : p.meets k = first := by
  rw [meets, if_pos hjn, hin, headD_cons]

lemma Proper.shared_given (h : p.Proper) (hin : p.Inside) {s : Elimination ℚ}
    (hgv : ∀ e, (s.tableOf.get? e).map (s.tables.getD · []) = (ofList p.given).get? e)
    (hi : i ∈ p.inner k) (hmt : i ≠ p.meets k) : ∃ id, s.tableOf.get? (i, p.meets k) = some id ∧
      s.tables.getD id [] = p.transform i (p.meets k) := by
  have htb := hgv (i, p.meets k)
  rw [(h.exists_given hin hi hmt).1] at htb
  obtain ⟨id, hid, htb⟩ := Option.map_eq_some_iff.1 htb
  exact ⟨id, hid, htb⟩

lemma Proper.exists_prepared (h : p.Proper) (hin : p.Inside) : ∃ s t u,
    p.start.withTables exactScale p.graph p.innerLinks p.costs p.given = .ok u ∧ Prepared p s t u := by
  obtain ⟨s, hs, hgr, hgv⟩ := grows_given (s := p.start) rfl p.given
  have hjn : ∀ e ∈ p.joints, e.1 ∈ p.keys ∧ p.graph.joins e.1 ∧ e.2 = p.inner e.1 :=
    fun e he => (mem_joints h.keys_nodup).1 he
  obtain ⟨t, ht, hjnd⟩ : ∃ t, p.joints.foldlM (fun added e =>
      joinTables exactScale p.graph p.costs s added e.1 e.2) s = .ok t ∧ Joined exactScale p.costs s p.joints t := by
    refine foldlM_joinTables_eq_ok hgr.stored ?_ (fun e he => ?_) (fun e he i hi => ?_) ?_
    · have hks : p.innerLinks.keys.Nodup := p.keys_innerLinks.symm ▸ h.keys_nodup
      exact hks.sublist (filter_sublist.map Prod.fst)
    · rw [(hjn e he).2.2]
      exact h.nodup_inner e.1
    · rw [(hjn e he).2.2] at hi
      exact (Links.mem_inner.1 hi).2
    · intro key first rest he i hi
      obtain ⟨-, hjns, hinr⟩ := hjn _ he
      have hmt := meets_of_inner hjns hinr.symm
      have hne : i ≠ p.meets key := by
        have hnd := h.nodup_inner key
        rw [← hinr, nodup_cons] at hnd
        rintro rfl
        exact hnd.1 (hmt ▸ hi)
      have hmem : i ∈ p.inner key := hinr ▸ mem_cons_of_mem first hi
      obtain ⟨id, hid, -⟩ := h.shared_given hin hgv hmem hne
      exact mem_keys_of_get? (hmt ▸ hid)
  have htr : ∀ e id, t.tableOf.get? e = some id → ∃ table, (t.tables.getD id []).transposed = .ok table := by
    rintro ⟨i, k⟩ id hid
    rcases hjnd.table_cases hid with ⟨e, he⟩ | ⟨first, rest, hmem, htb⟩
    · have htb := hgv e
      rw [he] at htb
      have hmem := mem_of_get?_ofList htb.symm
      rw [hjnd.grows.getD_tables (hgr.stored.lt_length e id he)]
      have hsh := h.given_shaped _ hmem
      obtain ⟨table, htr, -⟩ := transposed_eq_ok hsh (hsh.1 ▸ length_pos_iff.2 (h.given_ne_nil _ hmem))
      exact ⟨table, htr⟩
    · obtain ⟨-, -, hinr⟩ := hjn _ hmem
      have hfst : first ∈ p.inner k := hinr ▸ mem_cons_self
      obtain ⟨table, htr, -⟩ := transposed_eq_ok (tie_shaped _) (h.size_pos (hin.mem_keys hfst))
      exact ⟨table, htb ▸ htr⟩
  obtain ⟨u, hu, hrv⟩ := reverseTables_eq_ok hjnd.grows.stored htr
  refine ⟨s, t, u, ?_, hgr, hgv, hjnd, hrv, h, hin⟩
  rw [withTables, hs]
  change (p.joints.foldlM _ s >>= _) = _
  rw [ht, ok_bind, hu]

/-! ### The tables before the first step -/

namespace Prepared

variable {s t u : Elimination ℚ} (h : Prepared p s t u)
include h

lemma tabled : p.Tabled u := by
  obtain ⟨m, f, hs⟩ := h.grows.eq
  obtain ⟨m', f', ht⟩ := h.joined.grows.eq
  obtain ⟨m'', f'', hu⟩ := h.reversed.grows.eq
  exact ⟨_, f'', by rw [hu, ht, hs]⟩

lemma mem_around (hk : k ∈ p.keys) : i ∈ u.around k ↔ i ∈ p.inner k ∨ k ∈ p.inner i :=
  h.tabled.mem_around h.proper h.inside hk

section

variable (hsep : p.Separate)

section

variable (hi : i ∈ p.inner k)
include hi

lemma exists_joint (hjn : p.graph.joins k) :
    ∃ rest, p.inner k = p.meets k :: rest ∧ (k, p.meets k :: rest) ∈ p.joints := by
  cases hin : p.inner k with
  | nil =>
    rw [hin] at hi
    exact absurd hi not_mem_nil
  | cons first rest =>
    rw [meets_of_inner hjn hin]
    exact ⟨rest, rfl, (mem_joints h.proper.keys_nodup).2 ⟨mem_keys_of_mem_inner hi, hjn, hin.symm⟩⟩

/-- An input that a key is tied to has a table behind the given ones. -/
lemma tied (hmt : i = p.meets k) : ∃ id, s.tables.length ≤ id ∧ t.tableOf.get? (i, k) = some id ∧
      t.tables.getD id [] = p.edgeTable i k := by
  have hjn : p.graph.joins k := by
    by_contra hjn
    rw [meets, if_neg hjn] at hmt
    exact absurd (h.proper.lt_of_mem_inner hi) (by omega)
  obtain ⟨rest, -, hmem⟩ := h.exists_joint hi hjn
  rw [edgeTable, if_pos hmt, hmt]
  exact h.joined.tied k _ rest hmem

/-- Any other input shares the table given for its edge to the node that it is brought to. -/
lemma shared (hmt : i ≠ p.meets k) : t.tableOf.get? (i, k) = s.tableOf.get? (i, p.meets k) := by
  by_cases hjn : p.graph.joins k
  · obtain ⟨rest, hin, hmem⟩ := h.exists_joint hi hjn
    rw [hin, mem_cons] at hi
    exact h.joined.shared k _ rest hmem i (hi.resolve_left hmt)
  · have hsl : p.meets k = k := if_neg hjn
    rw [hsl]
    exact h.joined.other i k fun ins hins => absurd ((mem_joints h.proper.keys_nodup).1 hins).2.1 hjn

/-- An edge from an input to a key has the table by which it is charged. -/
lemma table_eq : ∃ id, t.tableOf.get? (i, k) = some id ∧ t.tables.getD id [] = p.edgeTable i k := by
  by_cases hmt : i = p.meets k
  · obtain ⟨id, -, hid⟩ := h.tied hi hmt
    exact ⟨id, hid⟩
  · obtain ⟨id, hid, htb⟩ := h.proper.shared_given h.inside h.given hi hmt
    refine ⟨id, (h.shared hi hmt).trans hid, ?_⟩
    rw [h.joined.grows.getD_tables (h.grows.stored.lt_length _ _ hid), htb, edgeTable, if_neg hmt]

/-- Against its direction an edge has the table that is given so, if any. -/
lemma tableOf_opposite : t.tableOf.get? (k, i) = s.tableOf.get? (k, i) := by
  refine h.joined.other k i fun ins hins hk => ?_
  obtain ⟨-, -, rfl⟩ := (mem_joints h.proper.keys_nodup).1 hins
  exact absurd (h.proper.lt_of_mem_inner hk) (h.proper.lt_of_mem_inner hi).asymm

/-- Before the first step, an edge against its direction has the transpose of the table by which it
is charged, which no other edge shares. -/
lemma backward : ∃ id, t.tables.length ≤ id ∧ u.tableOf.get? (k, i) = some id ∧
      (u.tableAt k i).Shaped (p.size k) (p.size i) ∧
      ∀ x y, (u.tableAt k i).entry y x = (p.edgeTable i k).entry x y := by
  obtain ⟨id, hid, htb⟩ := h.table_eq hi
  obtain ⟨id', hle, hid', htr⟩ := h.reversed.opposite i k id (mem_of_get? hid)
  obtain ⟨table, htb', hsh, hen⟩ := transposed_eq_ok
    (h.proper.shaped_edgeTable h.inside hi) (h.proper.size_pos (h.inside.mem_keys hi))
  rw [htb, htb', Except.ok.injEq] at htr
  have hat : u.tableAt k i = table := by rw [tableAt, hid', Option.map_some, Option.getD_some, htr]
  exact ⟨id', hle, hid', hat ▸ hsh, hat ▸ hen⟩

include hsep

/-- Before the first step, an edge in its direction has a table with the costs by which it is
charged. It is the one that it had, unless a table is given against the direction too. -/
lemma forward : ∃ id, (t.tables.length ≤ id ∨ t.tableOf.get? (i, k) = some id) ∧
      u.tableOf.get? (i, k) = some id ∧ (u.tableAt i k).Shaped (p.size i) (p.size k) ∧
      ∀ x y, (u.tableAt i k).entry x y = (p.edgeTable i k).entry x y := by
  have hsh := h.proper.shaped_edgeTable h.inside hi
  have hk := (mem_keys_of_mem_inner hi)
  cases hop : t.tableOf.get? (k, i) with
  | none =>
    obtain ⟨id, hid, htb⟩ := h.table_eq hi
    have hsm : u.tableOf.get? (i, k) = some id := by
      refine (h.reversed.other k i fun id' hid' => ?_).trans hid
      rw [get?_of_mem h.joined.grows.stored.keys_nodup hid'] at hop
      cases hop
    have hat : u.tableAt i k = p.edgeTable i k := by
      rw [tableAt, hsm, Option.map_some, Option.getD_some,
        h.reversed.grows.getD_tables (h.joined.grows.stored.lt_length _ _ hid), htb]
    exact ⟨id, .inr hid, hsm, hat ▸ hsh, fun x y => by rw [hat]⟩
  | some id =>
    have hgv := h.given (k, i)
    rw [← h.tableOf_opposite hi, hop, Option.map_some] at hgv
    have hmem := mem_of_get?_ofList hgv.symm
    have hgvn : (s.tables.getD id []).Shaped (p.size k) (p.size i) := h.proper.given_shaped _ hmem
    have htr : p.transform k i = s.tables.getD id [] := by rw [transform, ← hgv, Option.getD_some]
    have hlt : id < s.tables.length := h.grows.stored.lt_length (k, i) id ((h.tableOf_opposite hi).symm.trans hop)
    obtain ⟨id', hle, hid', htrn⟩ := h.reversed.opposite k i id (mem_of_get? hop)
    obtain ⟨table, htb, htbl, hen⟩ := transposed_eq_ok hgvn (h.proper.size_pos hk)
    rw [h.joined.grows.getD_tables hlt, htb, Except.ok.injEq] at htrn
    have hat : u.tableAt i k = table := by rw [tableAt, hid', Option.map_some, Option.getD_some, htrn]
    refine ⟨id', .inl hle, hid', hat ▸ htbl, fun x y => ?_⟩
    rw [hat, hen, ← htr]
    by_cases hxy : x < p.size i ∧ y < p.size k
    · exact hsep.opposite k hk i hi (mem_map_of_mem hmem) x hxy.1 y hxy.2
    · rw [hsh.entry_of_le (by omega), htr, hgvn.entry_of_le (by omega)]

/-- Two edges in their directions that name the same table are the same. -/
lemma forward_apart {j l id : ℕ} (hj : j ∈ p.inner l) (hik : t.tableOf.get? (i, k) = some id)
    (hjl : t.tableOf.get? (j, l) = some id) : i = j ∧ k = l := by
  have hnew : ∀ {i k j l}, i ∈ p.inner k → j ∈ p.inner l → i = p.meets k → j ≠ p.meets l →
      t.tableOf.get? (i, k) = some id → t.tableOf.get? (j, l) ≠ some id := by
    intro i k j l hi hj hik hjl hid hid'
    obtain ⟨id', hle, hid'', -⟩ := h.tied hi hik
    rw [hid, Option.some.injEq] at hid''
    have hlt := h.grows.stored.lt_length _ _ ((h.shared hj hjl).symm.trans hid')
    omega
  by_cases hmt : i = p.meets k <;> by_cases hmt' : j = p.meets l
  · obtain ⟨id', hle, hid', -⟩ := h.tied hi hmt
    rw [hik, Option.some.injEq] at hid'
    exact Prod.mk.inj (h.joined.grows.apart (i, k) (j, l) id (hid' ▸ hle) hik hjl)
  · exact absurd hjl (hnew hi hj hmt hmt' hik)
  · exact absurd hik (hnew hj hi hmt' hmt hjl)
  · have hed : (i, p.meets k) = (j, p.meets l) :=
      h.grows.apart _ _ id (Nat.zero_le id) ((h.shared hi hmt).symm.trans hik) ((h.shared hj hmt').symm.trans hjl)
    obtain ⟨rfl, hsm⟩ := Prod.mk.inj hed
    exact ⟨rfl, hsep.unshared k (mem_keys_of_mem_inner hi) l (mem_keys_of_mem_inner hj) i hi hj hmt hmt' hsm⟩

/-- The costs of two neighbours are those by which the edge between them is charged. -/
lemma link_eq (x y : ℕ) : u.link i k x y = (p.edgeTable i k).entry x y ∧
      u.link k i y x = (p.edgeTable i k).entry x y := by
  obtain ⟨-, -, -, -, hfr⟩ := h.forward hsep hi
  obtain ⟨-, -, -, -, hbc⟩ := h.backward hi
  exact ⟨hfr x y, hbc x y⟩

end

include hsep

/-! ### The state before the first step -/

lemma shaped (hk : k ∈ p.keys) (hi : i ∈ u.around k) : (u.tableAt k i).Shaped (p.size k) (p.size i) := by
  rcases (h.mem_around hk).1 hi with hi | hi
  · obtain ⟨-, -, -, hsh, -⟩ := h.backward hi
    exact hsh
  · obtain ⟨-, -, -, hsh, -⟩ := h.forward hsep hi
    exact hsh

lemma apart {j l : ℕ} (hi : i ∈ p.keys) (hk : k ∈ u.around i) (hj : j ∈ p.keys)
    (hl : l ∈ u.around j) (hsm : u.tableOf.get? (i, k) = u.tableOf.get? (j, l)) : i = j ∧ k = l := by
  -- of two edges, those that name a new table name it alone
  have hns : ∀ i k, i ∈ p.keys → k ∈ u.around i → ∃ id, u.tableOf.get? (i, k) = some id ∧
      (t.tables.length ≤ id ∨ i ∈ p.inner k ∧ t.tableOf.get? (i, k) = some id) := by
    intro i k hi hk
    rcases (h.mem_around hi).1 hk with hk | hk
    · obtain ⟨id, hle, hid, -⟩ := h.backward hk
      exact ⟨id, hid, .inl hle⟩
    · obtain ⟨id, hle, hid, -⟩ := h.forward hsep hk
      exact ⟨id, hid, hle.imp_right fun hid => ⟨hk, hid⟩⟩
  obtain ⟨id, hid, hcs⟩ := hns i k hi hk
  obtain ⟨id', hid', hcs'⟩ := hns j l hj hl
  rw [hid, hid', Option.some.injEq] at hsm
  obtain rfl := hsm
  have hold : ∀ {e}, t.tableOf.get? e = some id → id < t.tables.length := h.joined.grows.stored.lt_length _ _
  rcases hcs with hle | ⟨hik, hik'⟩
  · exact Prod.mk.inj (h.reversed.grows.apart (i, k) (j, l) id hle hid hid')
  · rcases hcs' with hle | ⟨hjl, hjl'⟩
    · exact absurd (hold hik') (not_lt.2 hle)
    · exact h.forward_apart hsep hik hjl hik' hjl'

/-- The total cost of an assignment is that of the graph by the tables of its edges. -/
lemma total_eq (a : ℕ → ℕ) : u.total a = p.tableTotal a := by
  have hnd : u.live.toFinset = p.keys.toFinset := by
    ext k
    rw [mem_toFinset, mem_toFinset, h.tabled.mem_live]
  have hed : ∀ k ∈ p.keys.toFinset, ∑ i ∈ p.keys.toFinset, (if i < k then u.pair i k (a i) (a k) else 0) =
        ∑ i ∈ (p.inner k).toFinset, (p.edgeTable i k).entry (a i) (a k) := by
    intro k _
    have hsb : (p.inner k).toFinset ⊆ p.keys.toFinset := by
      intro i hi
      rw [mem_toFinset] at hi ⊢
      exact (h.inside.mem_keys hi)
    rw [← Finset.sum_subset hsb fun i hi hnot => ?_]
    · refine Finset.sum_congr rfl fun i hi => ?_
      have hi := mem_toFinset.1 hi
      have hk : k ∈ u.around i := (h.mem_around (h.inside.mem_keys hi)).2 (.inr hi)
      rw [if_pos (h.proper.lt_of_mem_inner hi), pair, if_pos hk, (h.link_eq hsep hi _ _).1]
    · -- an earlier key that is no input of another is no neighbour of it
      rw [mem_toFinset] at hi hnot
      split_ifs with hlt
      · rw [pair, if_neg]
        rw [h.mem_around hi]
        rintro (hk | hk)
        · exact absurd (h.proper.lt_of_mem_inner hk) hlt.asymm
        · exact hnot hk
      · rfl
  rw [Elimination.total, totalCost, hnd, tableTotal, totalWith,
    ← sum_toFinset _ h.proper.keys_nodup, Finset.sum_add_distrib]
  congr 1
  · refine Finset.sum_congr rfl fun k hk => ?_
    rw [cost, h.tabled.prices_eq (mem_toFinset.1 hk)]
  · simp only [Finset.sum_filter]
    rw [Finset.sum_comm]
    refine Finset.sum_congr rfl fun k hk => ?_
    rw [hed k hk, sum_toFinset _ (h.proper.nodup_inner k)]

end

lemma choices_eq (hk : k ∈ p.keys) : u.choices k = p.size k := congrArg length (h.tabled.prices_eq hk)

/-- The state before the first step is a problem that an elimination solves. -/
lemma posed (hsep : p.Separate) (hne : p.keys ≠ []) : u.Posed := by
  have hlv : ∀ {k}, k ∈ u.live → k ∈ p.keys := h.tabled.mem_live.1
  have hsy : ∀ i ∈ u.live, ∀ k ∈ u.around i, k ∈ u.live ∧ i ∈ u.around k := by
    intro i hi k hk
    have hik := (h.mem_around (hlv hi)).1 hk
    have hk : k ∈ p.keys := hik.elim (fun hk => (h.inside.mem_keys hk)) fun hi => (mem_keys_of_mem_inner hi)
    exact ⟨h.tabled.mem_live.2 hk, (h.mem_around hk).2 hik.symm⟩
  have hsh : ∀ i ∈ u.live, ∀ k ∈ u.around i, (u.tableAt i k).Shaped (u.choices i) (u.choices k) := by
    intro i hi k hk
    rw [h.choices_eq (hlv hi), h.choices_eq (hlv (hsy i hi k hk).1)]
    exact h.shaped hsep (hlv hi) hk
  have hln : ∀ i ∈ u.live, ∀ k ∈ u.around i, ∀ x y, 0 ≤ u.link i k x y ∧ u.link k i y x = u.link i k x y := by
    intro i hi k hk x y
    rcases (h.mem_around (hlv hi)).1 hk with hk | hk
    · rw [(h.link_eq hsep hk y x).1, (h.link_eq hsep hk y x).2]
      exact ⟨h.proper.edgeTable_nonneg h.inside hk y x, rfl⟩
    · rw [(h.link_eq hsep hk x y).1, (h.link_eq hsep hk x y).2]
      exact ⟨h.proper.edgeTable_nonneg h.inside hk x y, rfl⟩
  have htd := h.tabled.tidy h.proper
  obtain ⟨tables, tableOf, hu⟩ := h.tabled
  have had : u.adjacent.keys = p.keys := by
    rw [hu]
    exact (keys_mapValues ..).trans p.keys_innerLinks
  exact {
    nonempty := fun hnil => hne (eq_nil_iff_forall_not_mem.2 fun k hk => not_mem_nil (hnil ▸ h.tabled.mem_live.2 hk))
    mem_keys := fun k hk => had ▸ hlv hk
    mem_live := fun k hk => h.tabled.mem_live.2 (had ▸ hk)
    nodup := htd.filed.nodup_flatten
    filed := fun k hk => htd.filed.mem_bucket hk (htd.degree_eq k hk)
    degree := htd.degree_eq
    room := htd.room
    around_nodup := fun k hk => h.tabled.nodup_around h.proper (hlv hk)
    irrefl := fun k _ => htd.irrefl k
    symm := hsy
    prices_ne_nil := fun k hk => h.tabled.prices_eq (hlv hk) ▸ h.proper.costs_ne_nil k (hlv hk)
    prices_nonneg := fun k hk => h.tabled.prices_eq (hlv hk) ▸ h.proper.costs_nonneg k (hlv hk)
    length := fun i hi k hk => (hsh i hi k hk).1
    row_length := fun i hi k hk => (hsh i hi k hk).2
    table_nonneg := fun i hi k hk => nonneg_of_entry fun x y => (hln i hi k hk x y).1
    mirrored := fun i hi k hk x _ y _ => (hln i hi k hk x y).2
    apart := fun i hi k hk j hj l hl => h.apart hsep (hlv hi) hk (hlv hj) hl
    stack_eq := by rw [hu]; rfl
    chosen_eq := by rw [hu]; rfl
    optimal_eq := by rw [hu]; rfl }

lemma possible (hsep : p.Separate) (hps : p.Possible) : u.Possible := by
  obtain ⟨a, ha, hlt⟩ := h.proper.tableTotal_possible h.inside hps
  refine ⟨a, fun k hk => ?_, (h.total_eq hsep a).trans_lt hlt⟩
  rw [h.choices_eq (h.tabled.mem_live.1 hk)]
  exact ha k (h.tabled.mem_live.1 hk)

end Prepared

/-- The choices of a run are one for each key, and have the least total cost of the graph. -/
structure Answers (p : GraphProblem) (r : Elimination ℚ) : Prop where
  nodup : r.chosen.keys.Nodup
  mem_keys : ∀ k, k ∈ r.chosen.keys ↔ k ∈ p.keys
  assigns : p.Assigns r.choice
  least : ∀ a, p.Assigns a → p.total r.choice ≤ p.total a

namespace Prepared

variable {s t u r : Elimination ℚ}

lemma answers (h : Prepared p s t u) (hps : p.Possible) (hsep : p.Separate)
    (hr : Solves u.choices u r) (hopt : r.optimal) : p.Answers r := by
  have has : p.Assigns r.choice := by
    intro k hk
    rw [← h.choices_eq hk]
    exact hr.choice_lt k (h.tabled.mem_live.2 hk)
  refine ⟨hr.nodup, fun k => (hr.mem_keys k).trans h.tabled.mem_live, has, fun a ha => ?_⟩
  refine h.proper.total_le_of_tableTotal_le h.inside hps has (fun b hb => ?_) ha
  rw [← h.total_eq hsep, ← h.total_eq hsep]
  refine hr.minimises hopt b fun k hk => ?_
  rw [h.choices_eq (h.tabled.mem_live.1 hk)]
  exact hb k (h.tabled.mem_live.1 hk)

end Prepared

/-- If the inputs of the keys are keys, the edges can be given their tables, and the elimination
ends or is refused. -/
lemma Proper.exists_solve (h : p.Proper) (hps : p.Possible) (hsep : p.Separate)
    (hin : p.Inside) (hne : p.keys ≠ []) : ∃ u,
    p.start.withTables exactScale p.graph p.innerLinks p.costs p.given = .ok u ∧
      ((∃ r, u.solve exactScale = .ok r ∧ (r.optimal → p.Answers r)) ∨
        ∃ i, u.solve exactScale = .error (stuckAt i)) := by
  obtain ⟨s, t, u, hu, hpr⟩ := h.exists_prepared hin
  have hpsd := hpr.posed hsep hne
  have hun := hpsd.underway (hpr.possible hsep hps)
  refine ⟨u, hu, ?_⟩
  rcases hun.forward_cases (Nat.lt_succ_self _) with
    ⟨t, hrun, hend, hfr⟩ | ⟨t, i, -, -, -, hfr⟩
  · obtain ⟨r, hbc, hsl⟩ := hun.exists_solves hpsd.stack_eq hrun hend
    exact .inl ⟨r, by rw [solve_eq, hfr, ok_bind, hbc], hpr.answers hps hsep hsl⟩
  · exact .inr ⟨i, by rw [solve_eq, hfr, error_bind]⟩

/-- If a run for a graph ends and fixed no choice on the way, it has made one choice at each key,
and the choices have the least total cost of the graph. If the inputs of the keys are keys unless
they are boundary nodes, a run ends or is refused at a node for which no choice can be fixed. -/
theorem run_least_or_refused (h : p.Proper) (hpossible : p.Possible) (hsep : p.Separate) :
    (∀ first r, run exactScale p.graph p.inputs p.costs p.given = .ok (first, r) → r.optimal = true → p.Answers r) ∧
    (p.Inside → p.keys ≠ [] →
      (∃ r, run exactScale p.graph p.inputs p.costs p.given = .ok (p.start, r)) ∨
      ∃ i, run exactScale p.graph p.inputs p.costs p.given = .error (stuckAt i)) := by
  rw [h.run_eq]
  refine ⟨fun first r hr hopt => ?_, fun hin hne => ?_⟩
  · obtain ⟨u, hu, r', hsolve, hr⟩ := bind₂_eq_ok.1 hr
    obtain ⟨-, rfl⟩ := Prod.mk.inj (Except.ok.inj hr)
    have htabled := tabled_of_withTables hu
    obtain ⟨u', hu', hcases⟩ := h.exists_solve hpossible hsep (htabled.inside h hsolve hopt)
      (htabled.keys_ne_nil hsolve)
    obtain rfl : u = u' := Except.ok.inj (hu.symm.trans hu')
    rcases hcases with ⟨r, hsolve', hanswers⟩ | ⟨i, hstuck⟩
    · obtain rfl : r' = r := Except.ok.inj (hsolve.symm.trans hsolve')
      exact hanswers hopt
    · rw [hsolve] at hstuck
      cases hstuck
  · obtain ⟨u, hu, hcases⟩ := h.exists_solve hpossible hsep hin hne
    rw [hu, ok_bind]
    rcases hcases with ⟨r, hsolve, -⟩ | ⟨i, hsolve⟩
    · exact .inl ⟨r, by rw [hsolve, ok_bind]⟩
    · exact .inr ⟨i, by rw [hsolve, error_bind]⟩

/-! ### Graphs for which the choices are the best and for which they are not -/

lemma start_eq_of_ascending (h : p.keys.Pairwise (· ≤ ·)) : p.start = { p.start with
    buckets := (range p.start.buckets.length).map fun d =>
      p.keys.filter (p.start.degree.get? · == some d) } := by
  rw [← p.keys_innerLinks] at h ⊢
  exact start_of_ascending h

/-- A graph of operators behind the input of the graph, each with the positions of its inputs;
convolutions are to be tuned. -/
def operators (ops : List (String × List ℕ)) : Graph where
  nodes := { name := some "data" } :: ops.map fun o => { op := some o.1, inputs := o.2 }
  targets := ["conv2d"]
  inputNames := ["data"]

/-- Two convolutions of one tensor, the sum of which goes into a third. -/
def branches : GraphProblem where
  graph := operators [("conv2d", [0]), ("conv2d", [1]), ("conv2d", [1]), ("add", [2, 3]), ("conv2d", [4])]
  inputs := ⟨[(1, [0]), (2, [1]), (3, [1]), (4, [2, 3]), (5, [4])]⟩
  costs := ([[], [1 / 2, 1], [0, 3], [2, 0], [0, 0], [1, 0]].getD · [])
  given := [((1, 2), [[0, 2], [1, 0]]), ((1, 3), [[0, 1], [3, 0]]), ((3, 2), [[0, 1], [1, 0]]),
    ((4, 5), [[0, 4], [1, 0]])]

theorem branches_least : branches.Proper ∧ branches.Possible ∧ branches.Separate ∧
    branches.Inside ∧ branches.graph.inputLinks = .ok branches.inputs ∧ ∃ r,
      run exactScale branches.graph branches.inputs branches.costs branches.given =
        .ok (branches.start, r) ∧ r.optimal = true ∧ branches.Answers r := by
  have hproper : branches.Proper := by decide +kernel
  have hpossible : branches.Possible := ⟨fun _ => 0, by decide +kernel, by decide +kernel⟩
  have hseparate : branches.Separate := by decide +kernel
  have hanswer : (run exactScale branches.graph branches.inputs branches.costs branches.given).map
      (·.2.optimal) = .ok true := by
    rw [hproper.run_eq, start_eq_of_ascending (by decide)]
    decide +kernel
  obtain ⟨hanswers, hends⟩ := run_least_or_refused hproper hpossible hseparate
  have hinside : branches.Inside := by decide +kernel
  refine ⟨hproper, hpossible, hseparate, hinside, by decide +kernel, ?_⟩
  rcases hends hinside (by decide) with ⟨r, hr⟩ | ⟨i, hr⟩
  · rw [hr] at hanswer
    have hopt : r.optimal = true := Except.ok.inj hanswer
    exact ⟨r, hr, hopt, hanswers _ r hr hopt⟩
  · rw [hr] at hanswer
    cases hanswer

/-- A convolution whose output is added to its input; tables are given for the edges between the two
in both directions. -/
def residual : GraphProblem where
  graph := operators [("conv2d", [0]), ("conv2d", [1]), ("add", [1, 2]), ("conv2d", [3])]
  inputs := ⟨[(1, [0]), (2, [1]), (3, [1, 2]), (4, [3])]⟩
  costs := ([[], [0, 0], [0, 0], [0, 0], [0, 0]].getD · [])
  given := [((1, 2), [[5, 5], [0, 0]]), ((2, 1), [[0, 1], [0, 1]]), ((3, 4), [[0, 0], [0, 0]])]

/-- Two convolutions of one tensor, joined with it; the edge from the tensor into the join shares
its table with the edge into the convolution that comes first. -/
def threefold : GraphProblem where
  graph := operators [("conv2d", [0]), ("conv2d", [1]), ("conv2d", [1]), ("concatenate", [3, 1, 2])]
  inputs := ⟨[(1, [0]), (2, [1]), (3, [1]), (4, [3, 1, 2])]⟩
  costs := ([[], [2, 0], [0], [0], [0]].getD · [])
  given := [((1, 2), [[1], [3]]), ((1, 3), [[3], [2]]), ((2, 3), [[0]])]

/-- A run may end without a choice fixed, and the choices made cost more than others. -/
def Misses (p : GraphProblem) : Prop :=
  ∃ first r a, run exactScale p.graph p.inputs p.costs p.given = .ok (first, r) ∧
    r.optimal = true ∧ p.Assigns a ∧ p.total a < p.total r.choice

lemma misses_of_run {a : ℕ → ℕ} (ha : p.Assigns a) (hrun : (run exactScale p.graph p.inputs p.costs p.given).map
      (fun x => (x.2.optimal, decide (p.total a < p.total x.2.choice))) = .ok (true, true)) :
    p.Misses := by
  cases hr : run exactScale p.graph p.inputs p.costs p.given with
  | error e =>
    rw [hr] at hrun
    cases hrun
  | ok x =>
    rw [hr] at hrun
    obtain ⟨hopt, hls⟩ := Prod.mk.inj (Except.ok.inj hrun)
    exact ⟨x.1, x.2, a, hr, hopt, ha, of_decide_eq_true hls⟩

/-- Neither need the choices have the least total if tables are given for an edge in both
directions, nor if two edges share a table. -/
theorem residual_threefold_missed :
    (residual.Proper ∧ residual.Possible ∧ residual.graph.inputLinks = .ok residual.inputs ∧ residual.Misses) ∧
    threefold.Proper ∧ threefold.Possible ∧ threefold.graph.inputLinks = .ok threefold.inputs ∧
      threefold.Misses := by
  have hresidual : residual.Proper := by decide +kernel
  have hthreefold : threefold.Proper := by decide +kernel
  refine ⟨⟨hresidual, ⟨fun _ => 0, by decide +kernel, by decide +kernel⟩, by decide +kernel, ?_⟩,
    hthreefold, ⟨fun _ => 0, by decide +kernel, by decide +kernel⟩, by decide +kernel, ?_⟩
  · refine misses_of_run (a := fun k => if k = 1 ∨ k = 3 then 1 else 0) (by decide +kernel) ?_
    rw [hresidual.run_eq, start_eq_of_ascending (by decide)]
    decide +kernel
  · refine misses_of_run (a := fun k => if k = 1 then 1 else 0) (by decide +kernel) ?_
    rw [hthreefold.run_eq, start_eq_of_ascending (by decide)]
    decide +kernel

end TensorToolchain.LayoutChoice.GraphProblem
