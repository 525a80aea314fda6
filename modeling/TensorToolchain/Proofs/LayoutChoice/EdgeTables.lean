import TensorToolchain.Proofs.LayoutChoice.Invariant

/-!
# The tables of the edges

Tables come to the edges for which they are given, then to the edges into joining nodes, and then to
the opposite edges. The first input of a joining node is tied to it by a new table; a later input
shares the table of its edge to the first one. An opposite edge has a table of its own, which
replaces the one that it may have had before.
-/

namespace TensorToolchain.LayoutChoice.Elimination

open List Keyed Option Prod

variable {γ : Type} {s t u : Elimination γ} {e : ℕ × ℕ} {i k id : ℕ}
variable {g : Graph} {ins : List ℕ} {costs : ℕ → List γ} {c : CostScale γ} {nodes : List (ℕ × List ℕ)}

/-- Every edge that names a table names it once, and the table is there. -/
structure Stored (s : Elimination γ) : Prop where
  keys_nodup : s.tableOf.keys.Nodup
  lt_length : ∀ e id, s.tableOf.get? e = some id → id < s.tables.length

/-- A state has the tables of another one and perhaps more behind them, and no two edges share one
of those. -/
structure Grows (s t : Elimination γ) : Prop where
  eq : ∃ more tableOf, t = { s with tables := s.tables ++ more, tableOf }
  stored : t.Stored
  apart : ∀ e e' id, s.tables.length ≤ id → t.tableOf.get? e = some id → t.tableOf.get? e' = some id → e = e'

lemma Stored.grows (h : s.Stored) : Grows s s := by
  refine ⟨⟨[], s.tableOf, by rw [append_nil]⟩, h, fun e e' id hid he _ => ?_⟩
  exact absurd (h.lt_length e id he) (not_lt.2 hid)

lemma Grows.length_le (h : Grows s t) : s.tables.length ≤ t.tables.length := by
  obtain ⟨more, tableOf, rfl⟩ := h.eq
  simp

lemma Grows.getD_tables (h : Grows s t) (hid : id < s.tables.length) : t.tables.getD id [] = s.tables.getD id [] := by
  obtain ⟨more, tableOf, rfl⟩ := h.eq
  exact getD_append _ _ _ _ hid

section

variable (s : Elimination γ) (i k : ℕ) (t : CostTable γ)

lemma tableOf_setTable (e : ℕ × ℕ) : (s.setTable i k t).tableOf.get? e = if e = (i, k) then some s.tables.length else
      s.tableOf.get? e := get?_set ..

lemma getD_setTable (hid : id < s.tables.length) : (s.setTable i k t).tables.getD id [] = s.tables.getD id [] :=
  getD_append _ _ _ _ hid

lemma getD_setTable_length : (s.setTable i k t).tables.getD s.tables.length [] = t := by simp [setTable]

end

lemma Grows.setTable (h : Grows s t) (i k : ℕ) (table : CostTable γ) : Grows s (t.setTable i k table) := by
  have hlt : ∀ e id, t.tableOf.get? e = some id → id < t.tables.length := h.stored.lt_length
  refine ⟨?_, ⟨nodup_keys_set _ _ h.stored.keys_nodup, fun e id he => ?_⟩, fun e e' id hid he he' => ?_⟩
  · obtain ⟨more, tableOf, rfl⟩ := h.eq
    exact ⟨more ++ [table], _, by rw [setTable, append_assoc]⟩
  · have hlen : (t.setTable i k table).tables.length = t.tables.length + 1 := by
      simp [Elimination.setTable]
    rw [tableOf_setTable] at he
    split_ifs at he with hek
    · obtain rfl := some.inj he
      omega
    · have := hlt e id he
      omega
  · rw [tableOf_setTable] at he he'
    split_ifs at he he' with hek hek' hek'
    · rw [hek, hek']
    · exact absurd (hlt e' id he') (by rw [← some.inj he]; exact lt_irrefl _)
    · exact absurd (hlt e id he) (by rw [← some.inj he']; exact lt_irrefl _)
    · exact h.apart e e' id hid he he'

/-- An edge that names a table of the first state adds to no sharing of later ones. -/
lemma Grows.share (h : Grows s t) (e : ℕ × ℕ) (hid : id < s.tables.length) :
    Grows s { t with tableOf := t.tableOf.set e id } := by
  refine ⟨?_, ⟨nodup_keys_set _ _ h.stored.keys_nodup, fun f n hf => ?_⟩, fun f f' n hn hf hf' => ?_⟩
  · obtain ⟨more, tableOf, rfl⟩ := h.eq
    exact ⟨more, _, rfl⟩
  · rw [get?_set] at hf
    split_ifs at hf with hfe
    · obtain rfl := some.inj hf
      exact hid.trans_le h.length_le
    · exact h.stored.lt_length f n hf
  · rw [get?_set] at hf hf'
    have hne : some id ≠ some n := fun e => by
      obtain rfl := some.inj e
      omega
    split_ifs at hf hf'
    · exact absurd hf hne
    · exact absurd hf hne
    · exact absurd hf' hne
    · exact h.apart f f' n hn hf hf'

/-- After the given tables are put in, each edge names the last table given for it. -/
lemma grows_given (htb : s.tableOf = {}) (given : List ((ℕ × ℕ) × CostTable γ)) :
    ∃ t, given.foldl (fun (s : Elimination γ) ((i, k), t) => s.setTable i k t) s = t ∧ Grows s t ∧
      ∀ e, (t.tableOf.get? e).map (t.tables.getD · []) = (ofList given).get? e := by
  induction given using reverseRecOn with
  | nil =>
    refine ⟨s, rfl, Stored.grows ⟨?_, fun e id he => ?_⟩, fun e => ?_⟩
    · rw [htb]
      exact nodup_nil
    · rw [htb] at he
      cases he
    · rw [htb]
      rfl
  | append_singleton given p ih =>
    obtain ⟨t, ht, hgr, hget⟩ := ih
    obtain ⟨⟨i, k⟩, table⟩ := p
    refine ⟨t.setTable i k table, by rw [foldl_append, ht]; rfl, hgr.setTable i k table, fun e => ?_⟩
    rw [ofList_concat, get?_set, tableOf_setTable]
    split_ifs with he
    · rw [map_some, getD_setTable_length]
    · rw [← hget]
      cases hid : t.tableOf.get? e with
      | none => rfl
      | some id => rw [map_some, map_some, getD_setTable t i k table (hgr.stored.lt_length e id hid)]

/-! ### Joining nodes -/

section Join

/-- The tables after the edges into some joining nodes have theirs: the first input of a node is
tied to it, and every later one shares the table of its edge to the first. -/
structure Joined (c : CostScale γ) (costs : ℕ → List γ) (s : Elimination γ)
    (nodes : List (ℕ × List ℕ)) (t : Elimination γ) : Prop where
  grows : Grows s t
  tied : ∀ k first rest, (k, first :: rest) ∈ nodes → ∃ id, s.tables.length ≤ id ∧
    t.tableOf.get? (first, k) = some id ∧ t.tables.getD id [] = c.tie (costs first).length
  shared : ∀ k first rest, (k, first :: rest) ∈ nodes → ∀ i ∈ rest, t.tableOf.get? (i, k) = s.tableOf.get? (i, first)
  other : ∀ i k, (∀ ins, (k, ins) ∈ nodes → i ∉ ins) → t.tableOf.get? (i, k) = s.tableOf.get? (i, k)

/-- The later inputs of a joining node name the tables of their edges to the first. -/
lemma foldlM_share_eq_ok (hs : s.Stored) (ht : Grows s t) (key first : ℕ) {rest : List ℕ}
    (hgv : ∀ i ∈ rest, (i, first) ∈ s.tableOf.keys) : ∃ u, rest.foldlM (fun (added : Elimination γ) i => do
        return { added with tableOf := added.tableOf.set (i, key) (← s.tableId i first) }) t = .ok u ∧
      Grows s u ∧ u.tables = t.tables ∧ ∀ e, u.tableOf.get? e =
        if e.2 = key ∧ e.1 ∈ rest then s.tableOf.get? (e.1, first) else t.tableOf.get? e := by
  refine foldlM_eq_ok (fun seen u => Grows s u ∧ u.tables = t.tables ∧ ∀ e, u.tableOf.get? e =
    if e.2 = key ∧ e.1 ∈ seen then s.tableOf.get? (e.1, first) else t.tableOf.get? e)
    ⟨ht, rfl, by simp⟩ ?_
  rintro seen i later u hsp ⟨hu, htbs, hget⟩
  obtain ⟨id, hid⟩ := exists_get? (hgv i (hsp ▸ mem_append_right seen mem_cons_self))
  refine ⟨{ u with tableOf := u.tableOf.set (i, key) id }, ?_,
    hu.share (i, key) (hs.lt_length _ _ hid), htbs, fun e => ?_⟩
  · rw [tableId, hid]
    rfl
  · rw [get?_set, hget]
    obtain ⟨j, l⟩ := e
    by_cases hl : l = key
    · by_cases hj : j = i
      · simp [hl, hj, hid]
      · simp [hl, hj]
    · simp [hl]

lemma Joined.joinTables_eq_ok (hs : s.Stored) {key : ℕ} (h : Joined c costs s nodes t)
    (hnew : key ∉ nodes.map fst) (hndp : ins.Nodup) (hin : ∀ i ∈ ins, g.isBoundary i = false)
    (hgv : ∀ first rest, ins = first :: rest → ∀ i ∈ rest, (i, first) ∈ s.tableOf.keys) :
    ∃ u, joinTables c g costs s t key ins = .ok u ∧ Joined c costs s (nodes ++ [(key, ins)]) u := by
  have hnd : ∀ k ins', (k, ins') ∈ nodes ++ [(key, ins)] ↔ (k, ins') ∈ nodes ∨ k = key ∧ ins' = ins := by
    intro k ins'
    rw [mem_append, mem_singleton, Prod.mk.injEq]
  have hold : ∀ k ins', (k, ins') ∈ nodes → k ≠ key := by
    rintro k ins' hk rfl
    exact hnew (mem_map_of_mem hk)
  cases ins with
  | nil =>
    refine ⟨t, rfl, h.grows, fun k first rest hk => ?_, fun k first rest hk => ?_, fun i k hk => ?_⟩
    · exact h.tied k first rest (((hnd k _).1 hk).resolve_right fun e => by cases e.2)
    · exact h.shared k first rest (((hnd k _).1 hk).resolve_right fun e => by cases e.2)
    · exact h.other i k fun ins' hins => hk ins' ((hnd k _).2 (.inl hins))
  | cons first rest =>
    have hfst : first ∉ rest := (nodup_cons.1 hndp).1
    have hdr : (first :: rest).dropWhile g.isBoundary = first :: rest := by
      rw [dropWhile_cons_of_neg]
      rw [hin first mem_cons_self]
      exact Bool.false_ne_true
    have hfl : rest.filter (!g.isBoundary ·) = rest := by
      refine filter_eq_self.2 fun i hi => ?_
      rw [hin i (mem_cons_of_mem _ hi)]
      rfl
    obtain ⟨u, hu, hgr, htbs, hget⟩ := foldlM_share_eq_ok hs
      (h.grows.setTable first key _) key first (hgv first rest rfl)
    have hkp : ∀ k ≠ key, ∀ i, u.tableOf.get? (i, k) = t.tableOf.get? (i, k) := by
      intro k hk i
      rw [hget, if_neg (hk ·.1), tableOf_setTable, if_neg fun e => hk (Prod.mk.inj e).2]
    refine ⟨u, ?_, hgr, fun k f r hk => ?_, fun k f r hk i hi => ?_, fun i k hk => ?_⟩
    · rw [joinTables, hdr]
      simp only [hfl]
      exact hu
    · rcases (hnd k _).1 hk with hk | ⟨rfl, hins⟩
      · obtain ⟨id, hid, hk', htb⟩ := h.tied k f r hk
        refine ⟨id, hid, by rw [hkp k (hold k _ hk), hk'], ?_⟩
        rw [htbs, getD_setTable t first key _ (h.grows.stored.lt_length _ _ hk'), htb]
      · obtain ⟨rfl, rfl⟩ := cons.inj hins
        refine ⟨t.tables.length, h.grows.length_le, ?_, by rw [htbs, getD_setTable_length]⟩
        rw [hget, if_neg (hfst ·.2), tableOf_setTable, if_pos rfl]
    · rcases (hnd k _).1 hk with hk | ⟨rfl, hins⟩
      · rw [hkp k (hold k _ hk), h.shared k f r hk i hi]
      · obtain ⟨rfl, rfl⟩ := cons.inj hins
        rw [hget, if_pos ⟨rfl, hi⟩]
    · rw [← h.other i k fun ins' hins => hk ins' ((hnd k _).2 (.inl hins)), hget, tableOf_setTable]
      have hnot : ¬ (k = key ∧ i ∈ first :: rest) := fun e => hk _ ((hnd k _).2 (.inr ⟨e.1, rfl⟩)) e.2
      rw [if_neg fun e => hnot ⟨e.1, mem_cons_of_mem _ e.2⟩, if_neg fun e => hnot ?_]
      obtain ⟨rfl, rfl⟩ := Prod.mk.inj e
      exact ⟨rfl, mem_cons_self⟩

/-- An edge names a table that was there, or one that ties a node to its first input. -/
lemma Joined.table_cases (h : Joined c costs s nodes t) (he : t.tableOf.get? (i, k) = some id) :
    (∃ e, s.tableOf.get? e = some id) ∨ ∃ first rest, (k, first :: rest) ∈ nodes ∧
        t.tables.getD id [] = c.tie (costs first).length := by
  by_cases hmem : ∃ ins, (k, ins) ∈ nodes ∧ i ∈ ins
  · obtain ⟨ins, hins, hi⟩ := hmem
    cases ins with
    | nil => exact absurd hi not_mem_nil
    | cons first rest =>
      rcases mem_cons.1 hi with rfl | hi
      · obtain ⟨id', -, hid', htb⟩ := h.tied k i rest hins
        rw [he, some.injEq] at hid'
        exact .inr ⟨i, rest, hins, hid' ▸ htb⟩
      · exact .inl ⟨(i, first), (h.shared k first rest hins i hi).symm.trans he⟩
  · have hot := h.other i k fun ins hins hi => hmem ⟨ins, hins, hi⟩
    exact .inl ⟨(i, k), hot.symm.trans he⟩

lemma foldlM_joinTables_eq_ok (hs : s.Stored) (hks : (nodes.map fst).Nodup)
    (hnd : ∀ e ∈ nodes, e.2.Nodup) (hin : ∀ e ∈ nodes, ∀ i ∈ e.2, g.isBoundary i = false)
    (hgv : ∀ key first rest, (key, first :: rest) ∈ nodes → ∀ i ∈ rest, (i, first) ∈ s.tableOf.keys) :
    ∃ t, nodes.foldlM (fun (added : Elimination γ) (p : ℕ × List ℕ) =>
      joinTables c g costs s added p.1 p.2) s = .ok t ∧ Joined c costs s nodes t := by
  refine foldlM_eq_ok _ ⟨hs.grows, by simp, by simp, fun _ _ _ => rfl⟩ ?_
  rintro seen ⟨key, ins⟩ rest t hsp ht
  have hmem : (key, ins) ∈ nodes := hsp ▸ mem_append_right seen mem_cons_self
  have hnew : key ∉ seen.map fst := by
    rw [hsp, map_append, nodup_append] at hks
    exact (hks.2.2 key · key mem_cons_self rfl)
  refine ht.joinTables_eq_ok hs hnew (hnd _ hmem) (hin _ hmem) ?_
  rintro first later rfl
  exact hgv key first later hmem

end Join

/-- The tables after the opposites of some edges have theirs: each has the transpose of the table of
the edge, behind all tables that were there, and the other edges name the tables that they did. -/
structure Reversed (s : Elimination γ) (edges : List ((ℕ × ℕ) × ℕ)) (t : Elimination γ) : Prop where
  grows : Grows s t
  opposite : ∀ i k id, ((i, k), id) ∈ edges → ∃ id', s.tables.length ≤ id' ∧ t.tableOf.get? (k, i) = some id' ∧
    (s.tables.getD id []).transposed = .ok (t.tables.getD id' [])
  other : ∀ i k, (∀ id, ((i, k), id) ∉ edges) → t.tableOf.get? (k, i) = s.tableOf.get? (k, i)

lemma Reversed.setTable {edges : List ((ℕ × ℕ) × ℕ)} (h : Reversed s edges t)
    (hnew : ∀ id, ((i, k), id) ∉ edges) {table : CostTable γ} (htb : (s.tables.getD id []).transposed = .ok table) :
    Reversed s (edges ++ [((i, k), id)]) (t.setTable k i table) := by
  have hkp : ∀ j l, (j, l) ≠ (i, k) → (t.setTable k i table).tableOf.get? (l, j) = t.tableOf.get? (l, j) := by
    intro j l hne
    refine (tableOf_setTable ..).trans (if_neg fun e => hne ?_)
    rw [(Prod.mk.inj e).1, (Prod.mk.inj e).2]
  refine ⟨h.grows.setTable k i table, fun j l id' hjl => ?_, fun j l hjl => ?_⟩
  · rcases mem_append.1 hjl with hjl | hjl
    · obtain ⟨id'', hle, hget, htr⟩ := h.opposite j l id' hjl
      refine ⟨id'', hle, by rw [hkp j l fun e => hnew id' (e ▸ hjl), hget], ?_⟩
      rw [getD_setTable t k i table (h.grows.stored.lt_length _ _ hget), htr]
    · obtain ⟨hed, rfl⟩ := Prod.mk.inj (mem_singleton.1 hjl)
      obtain ⟨rfl, rfl⟩ := Prod.mk.inj hed
      refine ⟨t.tables.length, h.grows.length_le, by rw [tableOf_setTable, if_pos rfl], ?_⟩
      rw [getD_setTable_length, htb]
  · rw [hkp j l, h.other j l fun id' hid => hjl id' (mem_append_left _ hid)]
    exact fun e => hjl id (mem_append_right _ (mem_singleton.2 (by rw [e])))

lemma reverseTables_eq_ok (hs : s.Stored)
    (htr : ∀ e id, s.tableOf.get? e = some id → ∃ table, (s.tables.getD id []).transposed = .ok table) :
    ∃ t, s.reverseTables = .ok t ∧ Reversed s s.tableOf.entries t := by
  refine foldlM_eq_ok _ ⟨hs.grows, fun _ _ _ h => absurd h not_mem_nil, fun _ _ _ => rfl⟩ ?_
  rintro seen ⟨⟨i, k⟩, id⟩ rest t hsp ht
  have hmem : ((i, k), id) ∈ s.tableOf.entries := hsp ▸ mem_append_right seen mem_cons_self
  obtain ⟨table, htb⟩ := htr (i, k) id (get?_of_mem hs.keys_nodup hmem)
  have hnew : ∀ id, ((i, k), id) ∉ seen := by
    intro id hid
    have hks := hs.keys_nodup
    rw [Keyed.keys, hsp, map_append, nodup_append] at hks
    exact hks.2.2 (i, k) (mem_map_of_mem hid) (i, k) mem_cons_self rfl
  exact ⟨_, by simp only [htb, ok_bind, pure_eq_ok], ht.setTable hnew htb⟩

lemma of_joinTables_eq_ok (h : joinTables c g costs s t k ins = .ok u) :
    ∃ tables tableOf, u = { t with tables, tableOf } := by
  rw [joinTables] at h
  split at h
  · obtain rfl := Except.ok.inj h
    exact ⟨_, _, rfl⟩
  · refine of_foldlM_eq_ok (fun _ u => ∃ tables tableOf, u = { t with tables, tableOf }) h ⟨_, _, rfl⟩ ?_
    rintro seen i later _ v - ⟨tables, tableOf, rfl⟩ hst
    obtain ⟨id, -, hst⟩ := bind_eq_ok.1 hst
    obtain rfl := Except.ok.inj hst
    exact ⟨_, _, rfl⟩

lemma of_reverseTables_eq_ok (h : s.reverseTables = .ok u) : ∃ tables tableOf, u = { s with tables, tableOf } := by
  refine of_foldlM_eq_ok (fun _ u => ∃ tables tableOf, u = { s with tables, tableOf }) h ⟨_, _, rfl⟩ ?_
  rintro seen ⟨⟨i, k⟩, id⟩ later _ v - ⟨tables, tableOf, rfl⟩ hst
  obtain ⟨table, -, hst⟩ := bind_eq_ok.1 hst
  obtain rfl := Except.ok.inj hst
  exact ⟨_, _, rfl⟩

lemma of_withTables_eq_ok {inputs : Links} {given : List ((ℕ × ℕ) × CostTable γ)} (htb : s.tableOf = {})
    (h : s.withTables c g inputs costs given = .ok u) : ∃ tables tableOf, u = { s with tables, tableOf } := by
  obtain ⟨t, hjn, hrv⟩ := bind_eq_ok.1 h
  obtain ⟨r, hr, hgr, -⟩ := grows_given htb given
  rw [hr] at hjn
  obtain ⟨more, names, rfl⟩ := hgr.eq
  obtain ⟨tables, tableOf, rfl⟩ : ∃ tables tableOf, t = { s with tables, tableOf } := by
    refine of_foldlM_eq_ok (fun _ t => ∃ tables tableOf, t = { s with tables, tableOf }) hjn ⟨_, _, rfl⟩ ?_
    rintro seen e later _ v - ⟨tables, tableOf, rfl⟩ hst
    obtain ⟨tables', tableOf', rfl⟩ := of_joinTables_eq_ok hst
    exact ⟨tables', tableOf', rfl⟩
  obtain ⟨tables', tableOf', rfl⟩ := of_reverseTables_eq_ok hrv
  exact ⟨tables', tableOf', rfl⟩

end TensorToolchain.LayoutChoice.Elimination
