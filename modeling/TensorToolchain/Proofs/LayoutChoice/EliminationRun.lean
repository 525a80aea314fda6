import TensorToolchain.Proofs.LayoutChoice.TwoNeighbours

/-!
# Runs of the elimination

Every step of a sound state eliminates a node, fixes a choice, or is refused; there is no step only
when no node that is left has a neighbour. Each step leaves one node fewer, so a run ends.
-/

namespace TensorToolchain.LayoutChoice.Elimination

open List Relation

/-! ### A choice fixed by its local cost

A node with many neighbours gets a choice whose cost, with the least costs at its neighbours, is
less than that of an impossible layout. If there is none, the elimination is refused.
-/

variable {s t u : Elimination ℚ} {size : ℕ → ℕ} {i k p : ℕ}

/-- A step takes one node out after fixing its choice, so that the least total may be lost. -/
structure Fixes (size : ℕ → ℕ) (s t : Elimination ℚ) (i : ℕ) : Prop extends Reduces size s t i where
  chosen : ∃ p < size i, t.chosen = s.chosen.set i p
  optimal : t.optimal = false

def stuckAt (i : ℕ) : Fault := .worded .runtime
  ("Can't find a soltuion for node " ++ toString i ++ " when applying RN reduction")

lemma foldlM_addAt_eq_ok {xs row : List ℚ} (h : row.length ≤ xs.length) :
    ∃ ys, row.zipIdx.foldlM (fun costs (d, q) => exactScale.addAt costs q d) xs = .ok ys ∧
      ys.length = xs.length ∧ ∀ p, ys.getD p 0 = xs.getD p 0 + row.getD p 0 := by
  refine foldlM_zipIdx_eq_ok (fun seen (ys : List ℚ) => ys.length = xs.length ∧
    ∀ p, ys.getD p 0 = xs.getD p 0 + seen.getD p 0) ⟨rfl, by simp⟩ ?_
  rintro seen d ys - hlt ⟨hlen, hys⟩
  have hlt : seen.length < ys.length := hlen.symm ▸ hlt.trans_le h
  refine ⟨_, addAt_eq_ok d hlt, by rw [length_set, hlen], fun p => ?_⟩
  rw [getD_set_add p d hlt, hys, getD_concat, add_assoc]

section

variable (h : s.Sound size) (hi : i ∈ s.live)
include h hi

lemma Sound.leastBeside_le (hk : k ∈ s.around i) (hp : p < size i) : ∃ v, s.leastBeside exactScale i p k = .ok v ∧
      ∀ q < size k, v ≤ s.cost k q + s.link i k p q := by
  have hk' : k ∈ s.live := h.linked.mem_live i hi k hk
  have hsh := h.priced.shaped i (.inl hi) k hk
  have hpr := h.priced.length k (.inl hk')
  have hlen : ((s.tableAt i k).getD p []).length = size k := hsh.length_getD hp
  obtain ⟨ys, hfl, hys, hvs⟩ := foldlM_addAt_eq_ok (hlen.trans hpr.symm).le
  have hne : ys ≠ [] := by
    have hpos := h.priced.size_pos k (.inl hk')
    rintro rfl
    rw [hpr] at hys
    exact hpos.ne hys
  obtain ⟨v, -, hv, hls⟩ := leastOf?_eq_some hne
  refine ⟨v, ?_, fun q hq => ?_⟩
  · simp only [leastBeside, h.priced.table_eq (.inl hi) hk, ok_bind, hsh.getElem?_eq hp, orFail_some,
      h.priced.costsOf_eq (.inl hk')]
    rw [hfl, ok_bind, hv, orFail_some]
  · have hq : q < ys.length := (hys.trans hpr).symm ▸ hq
    have hvl := hvs q
    rw [getD_eq_getElem ys 0 hq] at hvl
    exact (hls _ (getElem_mem hq)).trans_eq hvl

/-- The local cost of a choice is no more than the node, its edges and its neighbours cost, whatever
is chosen at the neighbours. -/
lemma Sound.localCost_le (hp : p < size i) (c : ℚ) :
    ∃ v, s.localCost exactScale i p c = .ok v ∧ ∀ a : ℕ → ℕ, (∀ j ∈ s.live, a j < size j) →
      v ≤ c + ((s.around i).map fun k => s.cost k (a k) + s.link i k p (a k)).sum := by
  rw [localCost, h.linked.neighbours_eq (.inl hi)]
  refine foldlM_eq_ok (fun seen v => ∀ a : ℕ → ℕ, (∀ j ∈ s.live, a j < size j) →
    v ≤ c + (seen.map fun k => s.cost k (a k) + s.link i k p (a k)).sum) (fun a _ => by simp) ?_
  intro seen k rest v hsp hv
  have hk : k ∈ s.around i := by simp [hsp]
  obtain ⟨w, hw, hls⟩ := h.leastBeside_le hi hk hp
  refine ⟨v + w, by rw [hw]; rfl, fun a ha => ?_⟩
  rw [map_append, sum_append, map_singleton, sum_singleton, ← add_assoc]
  exact add_le_add (hv a ha) (hls (a k) (ha k (h.linked.mem_live i hi k hk)))

/-- A node, its edges and its neighbours cost no more than the total. -/
lemma Sound.around_le_total (a : ℕ → ℕ) :
    s.cost i (a i) + ((s.around i).map fun k => s.cost k (a k) + s.link i k (a i) (a k)).sum ≤ s.total a := by
  have hsp : ((s.around i).map fun k => s.cost k (a k) + s.link i k (a i) (a k)).sum =
      ((s.around i).map fun k => s.cost k (a k)).sum +
        ((s.around i).map fun k => s.link i k (a i) (a k)).sum := sum_map_add
  have hsum : ((s.around i).map fun k => s.cost k (a k)).sum ≤ ∑ k ∈ s.live.toFinset.erase i, s.cost k (a k) := by
    rw [← sum_toFinset _ (h.linked.nodup i hi)]
    refine Finset.sum_le_sum_of_subset_of_nonneg (fun k hk => ?_) fun k hk _ => ?_
    · have hk := mem_toFinset.1 hk
      refine Finset.mem_erase.2 ⟨fun e => h.linked.irrefl i hi (e ▸ hk), ?_⟩
      exact mem_toFinset.2 (h.linked.mem_live i hi k hk)
    · exact h.priced.cost_nonneg k (mem_toFinset.1 (mem_of_mem_erase hk)) _
  have hr : ∑ k ∈ s.live.toFinset.erase i, s.cost k (a k) ≤ totalCost (s.live.toFinset.erase i) s.cost s.pair a :=
    sum_cost_le_totalCost fun j hj k _ => pair_nonneg h.priced (mem_toFinset.1 (mem_of_mem_erase hj)) _ _
  rw [total_eq h.linked h.priced hi, beside]
  linarith

/-- The search for a choice finds one of the node's choices, unless every local cost, and so the
total, is at least that of an impossible layout. -/
lemma Sound.foldlM_localCost_eq_ok :
    ∃ found : ℚ × Option ℕ, (s.prices i).zipIdx.foldlM (fun (least, best) (cost, choice) => do
        let total ← s.localCost exactScale i choice cost
        return if exactScale.less total least then (total, some choice) else (least, best))
        (exactScale.invalid, none) = .ok found ∧
      (∀ p, found.2 = some p → p < size i) ∧ (found.2 = none → ∀ a : ℕ → ℕ, (∀ j ∈ s.live, a j < size j) →
        exactScale.invalid ≤ s.total a) := by
  refine (foldlM_eq_ok (fun seen found =>
    (∀ p, found.2 = some p → p < size i) ∧ (found.2 = none → found.1 = exactScale.invalid ∧ ∀ e ∈ seen, ∃ v,
      s.localCost exactScale i e.2 e.1 = .ok v ∧ exactScale.invalid ≤ v))
    ⟨by simp, by simp⟩ ?_).imp fun found hfn => ⟨hfn.1, hfn.2.1, fun hbs a ha => ?_⟩
  · rintro seen ⟨c, q⟩ rest ⟨least, best⟩ hsp ⟨hsm, hno⟩
    obtain ⟨-, -, hq⟩ := eq_length_of_zipIdx_eq hsp
    rw [h.priced.length i (.inl hi)] at hq
    obtain ⟨v, hv, -⟩ := h.localCost_le hi hq c
    by_cases hls : v < least
    · refine ⟨(v, some q), ?_, fun p hp => Option.some.inj hp ▸ hq, fun hc => by simp at hc⟩
      simp [hv, exactScale_less.2 hls]
    · refine ⟨(least, best), ?_, hsm, fun hbs => ⟨(hno hbs).1, fun e he => ?_⟩⟩
      · have hnot : ¬ exactScale.less v least = true := fun hc => hls (exactScale_less.1 hc)
        simp only [hv, ok_bind, hnot, pure_eq_ok]
        rfl
      · rcases mem_snoc.1 he with he | rfl
        · exact (hno hbs).2 e he
        · exact ⟨v, hv, (hno hbs).1 ▸ not_lt.1 hls⟩
  · -- the choice of the assignment at the node was tried too
    have hai : a i < (s.prices i).length := h.priced.length i (.inl hi) ▸ ha i hi
    obtain ⟨v, hv, hle⟩ := (hfn.2.2 hbs).2 (s.cost i (a i), a i) (by
      rw [mk_mem_zipIdx_iff_getElem?, getElem?_eq_getElem hai, cost, getD_eq_getElem _ _ hai])
    obtain ⟨w, hw, hbd⟩ := h.localCost_le hi (ha i hi) _
    rw [hv, Except.ok.injEq] at hw
    exact hle.trans (hw ▸ (hbd a ha).trans (h.around_le_total hi a))

/-- The costs of the edges of a node for one of its choices are added to its neighbours. -/
lemma Sound.foldlM_addRow_eq_ok (hp : p < size i) : ∃ t, (s.around i).foldlM (fun (s : Elimination ℚ) k => do
        let row ← orFail .badIndex (← s.table i k)[p]?
        row.zipIdx.foldlM (fun (s : Elimination ℚ) (d, q) => s.addCost exactScale k q d) s) s = .ok t ∧
      Raises s t (s.around i) fun j q => if j ∈ s.around i then s.link i j p q else 0 := by
  refine foldlM_eq_ok (fun seen t =>
    Raises s t _ fun j q => if j ∈ seen then s.link i j p q else 0)
    ((Raises.refl s _).congr fun j q => by simp) ?_
  intro seen k rest t hsp ht
  have hk : k ∈ s.around i := by simp [hsp]
  have hk' : k ∈ s.live := h.linked.mem_live i hi k hk
  have hsn := notMem_seen (h.linked.nodup i hi) hsp
  have hsh := h.priced.shaped i (.inl hi) k hk
  have htb : t.table i k = .ok (s.tableAt i k) := by
    obtain ⟨costs, rfl⟩ := ht.eq
    exact h.priced.table_eq (.inl hi) hk
  have hlen : ((s.tableAt i k).getD p []).length ≤ (t.prices k).length := by
    rw [ht.length, h.priced.length k (.inl hk'), hsh.length_getD hp]
  obtain ⟨u, hu, hrs⟩ := foldlM_addCost_eq_ok (f := fun s e => s.addCost exactScale k e.2 e.1) hlen fun r d q _ _ => rfl
  refine ⟨u, ?_, ((ht.trans (hrs.mono ?_)).congr fun j q => ?_)⟩
  · simp only [htb, ok_bind, hsh.getElem?_eq hp, orFail_some]
    exact hu
  · intro j hj
    rw [mem_singleton.1 hj]
    exact hk
  · by_cases hj : j = k
    · simp [hj, hsn, link, CostTable.entry]
    · simp [hj]

/-- Fixing the choice at a node leaves a sound state, and it is refused only if every total is at
least the cost of an impossible layout. -/
lemma Sound.fixLocally_cases : (∃ t, s.fixLocally exactScale i = .ok t ∧ Fixes size s t i) ∨
      s.fixLocally exactScale i = .error (stuckAt i) ∧
      ∀ a : ℕ → ℕ, (∀ j ∈ s.live, a j < size j) → exactScale.invalid ≤ s.total a := by
  obtain ⟨⟨least, best⟩, hfl, hsm, hno⟩ := h.foldlM_localCost_eq_ok hi
  cases best with
  | none =>
    refine .inr ⟨?_, hno rfl⟩
    rw [fixLocally, h.priced.costsOf_eq (.inl hi), ok_bind, hfl]
    rfl
  | some p =>
    have hp : p < size i := hsm p rfl
    let r : Elimination ℚ := { s with chosen := s.chosen.set i p, optimal := false }
    have hr : r.Sound size := { h with linked := { h.linked with }, priced := { h.priced with } }
    obtain ⟨t, hrw, ht⟩ := hr.foldlM_addRow_eq_ok hi hp
    have hnn : ∀ j q, 0 ≤ if j ∈ r.around i then r.link i j p q else 0 := by
      intro j q
      split_ifs with hj
      · exact hr.priced.link_nonneg i hi j hj p q
      · exact le_rfl
    obtain ⟨u, hu, hrd, hch, hop, -⟩ := hr.retire_raised hi ht hnn
    refine .inl ⟨u, ?_, ⟨hi, hrd.sound, hrd.mem_live, hrd.stack, fun j hj => ?_⟩, ⟨p, hp, hch⟩, hop⟩
    · have hng : r.neighbours i = .ok (r.around i) := hr.linked.neighbours_eq (.inl hi)
      rw [fixLocally, h.priced.costsOf_eq (.inl hi), ok_bind, hfl]
      change (r.neighbours i >>= fun around => around.foldlM _ r >>= (·.retire i)) = _
      rw [hng, ok_bind, hrw, ok_bind, hu]
    · have hkp := hrd.keeps j hj
      exact ⟨hkp.around_eq, hkp.prices_eq, hkp.tableAt_eq⟩

end

/-- One step of the elimination on exact costs. -/
def Steps (s t : Elimination ℚ) : Prop := s.step exactScale = .ok (some t)

lemma Sound.nodup_live (h : s.Sound size) : s.live.Nodup := h.filed.nodup_flatten

lemma Sound.length_around (h : s.Sound size) {d : ℕ} (hi : i ∈ s.buckets.getD d []) :
    i ∈ s.live ∧ (s.around i).length = d := by
  have hlv : i ∈ s.live := mem_flatten_iff.2 ⟨d, hi⟩
  have hdg := h.filed.degree_eq d i hi
  rw [h.degree_eq i hlv, Option.some.injEq] at hdg
  exact ⟨hlv, hdg⟩

lemma mem_live_of_crowded? (h : s.crowded? = some i) : i ∈ s.live := by
  obtain ⟨bucket, hbc, hhd⟩ := exists_of_findSome?_eq_some h
  have hmem : bucket ∈ s.buckets := mem_of_mem_take (mem_of_mem_drop (mem_reverse.1 hbc))
  exact mem_flatten.2 ⟨bucket, hmem, mem_of_mem_head? hhd⟩

lemma Sound.step_cases (h : s.Sound size) : (s.step exactScale = .ok none ∧
      ∀ i ∈ s.live, s.around i = [] ∧ i ∈ s.buckets.headD []) ∨
    (∃ i t, s.step exactScale = .ok (some t) ∧ (Eliminates size s t i ∨ Fixes size s t i)) ∨
    ∃ i, s.step exactScale = .error (stuckAt i) ∧
      ∀ a : ℕ → ℕ, (∀ j ∈ s.live, a j < size j) → exactScale.invalid ≤ s.total a := by
  have htwo := h.two_le
  rw [step, getElem?_eq_some_getD [] (show 1 < s.buckets.length by omega), orFail_some, ok_bind]
  cases hone : s.buckets.getD 1 [] with
  | cons i rest =>
    obtain ⟨hi, hlen⟩ := h.length_around (hone ▸ mem_cons_self)
    obtain ⟨k, hk⟩ := length_eq_one_iff.1 hlen
    obtain ⟨t, ht, hel⟩ := h.reduceOne_eq_ok hi hk
    refine .inr (.inl ⟨i, t, ?_, .inl hel⟩)
    simp only [ht, ok_bind]
    rfl
  | nil =>
    cases hdb : (if 3 < s.buckets.length then s.buckets.getD 2 [] else []) with
    | cons i rest =>
      have hmem : i ∈ s.buckets.getD 2 [] := by
        split_ifs at hdb
        rw [hdb]
        exact mem_cons_self
      obtain ⟨hi, hlen⟩ := h.length_around hmem
      obtain ⟨x, y, hxy⟩ := length_eq_two.1 hlen
      obtain ⟨t, ht, hel⟩ := h.reduceTwo_eq_ok hi hxy
      refine .inr (.inl ⟨i, t, ?_, .inl hel⟩)
      simp only [ht, ok_bind]
      rfl
    | nil =>
      cases hcr : s.crowded? with
      | some i =>
        rcases h.fixLocally_cases (mem_live_of_crowded? hcr) with ⟨t, ht, hfix⟩ | ⟨ht, hall⟩
        · refine .inr (.inl ⟨i, t, ?_, .inr hfix⟩)
          simp only [ht, ok_bind]
          rfl
        · refine .inr (.inr ⟨i, ?_, hall⟩)
          simp [ht]
      | none =>
        refine .inl ⟨rfl, fun i hi => ?_⟩
        obtain ⟨d, hd⟩ := mem_flatten_iff.1 hi
        have hlen := (h.length_around hd).2
        have hbd := h.bound i hi
        obtain rfl : d = 0 := eq_zero_of_idle hone hdb hcr hd (by omega)
        refine ⟨length_eq_zero_iff.1 hlen, ?_⟩
        rwa [headD_eq_getD]

namespace Eliminates

variable {a b : ℕ → ℕ}

lemma total_le (h : Eliminates size s t i) (hs : s.Sound size) (ha : ∀ j ∈ s.live, a j < size j) :
    t.total a ≤ s.total a := by
  rw [h.total_eq a ha, Elimination.total_eq hs.linked hs.priced h.mem]
  exact add_le_add_right (cappedLeast_le (s.beside i · a) (ha i h.mem)) _

/-- Nor does it lower it below that of an impossible layout, if the node gets the choice that costs
least beside the others. -/
lemma total_eq_of_least (h : Eliminates size s t i) (hs : s.Sound size)
    (hb : ∀ j ∈ s.live, b j < size j) (hls : ∀ q < size i, s.beside i (b i) b ≤ s.beside i q b)
    (htl : t.total b < exactScale.invalid) : s.total b = t.total b := by
  have hlv : ∀ j ∈ s.live.toFinset.erase i, j ∈ s.live := fun j hj => mem_toFinset.1 (mem_of_mem_erase hj)
  have hr : 0 ≤ totalCost (s.live.toFinset.erase i) s.cost s.pair b :=
    totalCost_nonneg (fun j hj => hs.priced.cost_nonneg j (hlv j hj) _)
      fun j hj k _ => pair_nonneg hs.priced (hlv j hj) _ _
  rw [h.total_eq b hb] at htl ⊢
  rw [Elimination.total_eq hs.linked hs.priced h.mem, cappedLeast_eq (hb i h.mem) hls (by linarith)]

end Eliminates

/-- What holds of a state that a run has reached: every choice made so far is at a retired node, and
as long as no choice was fixed, none is made and the total can be that of a possible layout. -/
structure Underway (size : ℕ → ℕ) (s : Elimination ℚ) : Prop where
  sound : s.Sound size
  chosen_nodup : s.chosen.keys.Nodup
  mem_stack : ∀ j p, s.chosen.get? j = some p → j ∈ s.stack ∧ p < size j
  unchosen : s.optimal = true → ∀ j, s.chosen.get? j = none
  feasible : s.optimal = true → ∃ a : ℕ → ℕ, (∀ j ∈ s.live, a j < size j) ∧ s.total a < exactScale.invalid

/-- A step that is taken eliminates a node or fixes a choice. -/
lemma Sound.of_steps (h : s.Sound size) (hst : Steps s t) : ∃ i, Eliminates size s t i ∨ Fixes size s t i := by
  rcases h.step_cases with ⟨hs, -⟩ | ⟨i, u, hs, hrd⟩ | ⟨i, hs, -⟩
  all_goals rw [Steps, hs] at hst
  all_goals cases hst
  exact ⟨i, hrd⟩

lemma Sound.reduces (h : s.Sound size) (hst : Steps s t) : ∃ i, Reduces size s t i :=
  (h.of_steps hst).imp fun _ hrd => hrd.elim (·.toReduces) (·.toReduces)

/-- What a run keeps: the state stays sound, no node comes or goes, and the retired nodes stay as
they were. -/
lemma Sound.run (h : s.Sound size) (hrun : ReflTransGen Steps s t) :
    t.Sound size ∧ (∀ j, t.Known j ↔ s.Known j) ∧ ∀ j ∈ s.stack, j ∈ t.stack ∧ Keeps s t j := by
  induction hrun with
  | refl => exact ⟨h, fun j => .rfl, fun j hj => ⟨hj, .refl s j⟩⟩
  | @tail t u _ hst ih =>
    obtain ⟨ht, hnd, hkp⟩ := ih
    obtain ⟨i, hrd⟩ := ht.reduces hst
    refine ⟨hrd.sound, fun j => ?_, fun j hj => ?_⟩
    · rw [← hnd, Known, Known, hrd.mem_live, hrd.stack, mem_append]
      by_cases hj : j = i
      · simp [hj, hrd.mem]
      · simp [hj]
    · obtain ⟨hmem, hke⟩ := hkp j hj
      have hme' : j ∈ u.stack := by
        rw [hrd.stack]
        exact mem_append_left _ hmem
      exact ⟨hme', hke.trans (hrd.keeps j hme')⟩

/-- A step keeps what holds of a state, and keeps the least total unless it fixes a choice. -/
lemma Underway.step (h : Underway size s) (hst : Steps s t) : Underway size t ∧ ∃ i, Reduces size s t i ∧
      (t.optimal → s.optimal ∧ Eliminates size s t i) := by
  obtain ⟨i, hel | hfix⟩ := h.sound.of_steps hst
  · refine ⟨⟨hel.sound, ?_, fun j p hj => ?_, fun hopt j => ?_, fun hopt => ?_⟩, i,
      hel.toReduces, fun hopt => ⟨hel.optimal ▸ hopt, hel⟩⟩
    · rw [hel.chosen]
      exact h.chosen_nodup
    · rw [hel.chosen] at hj
      obtain ⟨hmem, hp⟩ := h.mem_stack j p hj
      exact ⟨by rw [hel.stack]; exact mem_append_left _ hmem, hp⟩
    · rw [hel.chosen]
      exact h.unchosen (hel.optimal ▸ hopt) j
    · obtain ⟨a, ha, htl⟩ := h.feasible (hel.optimal ▸ hopt)
      exact ⟨a, fun j hj => ha j ((hel.mem_live j).1 hj).1, (hel.total_le h.sound ha).trans_lt htl⟩
  · obtain ⟨p, hp, hch⟩ := hfix.chosen
    have hnot : ¬ t.optimal := by
      rw [hfix.optimal]
      exact Bool.false_ne_true
    refine ⟨⟨hfix.sound, ?_, fun j q hj => ?_, (absurd · hnot), (absurd · hnot)⟩, i, hfix.toReduces, (absurd · hnot)⟩
    · rw [hch]
      exact Keyed.nodup_keys_set i p h.chosen_nodup
    · rw [hch, Keyed.get?_set] at hj
      rw [hfix.stack]
      split_ifs at hj with hji
      · exact ⟨by simp [hji], hji ▸ Option.some.inj hj ▸ hp⟩
      · obtain ⟨hmem, hq⟩ := h.mem_stack j q hj
        exact ⟨mem_append_left _ hmem, hq⟩

lemma Underway.run (h : Underway size s) (hrun : ReflTransGen Steps s t) :
    Underway size t ∧ (t.optimal → s.optimal) := by
  induction hrun with
  | refl => exact ⟨h, id⟩
  | tail _ hst ih =>
    obtain ⟨hu, i, -, hopt⟩ := ih.1.step hst
    exact ⟨hu, fun ho => ih.2 (hopt ho).1⟩

lemma Reduces.length_live (h : Reduces size s t i) (hs : s.Sound size) : t.live.length + 1 = s.live.length :=
  length_of_mem_iff hs.nodup_live h.sound.nodup_live h.mem h.mem_live

/-- With as many steps as there are nodes left, the elimination ends in a state without a step, or
is refused in a state whose total cannot be that of a possible layout. -/
lemma Sound.forward_cases (h : s.Sound size) {n : ℕ} (hn : s.live.length < n) :
    (∃ t, ReflTransGen Steps s t ∧ t.step exactScale = .ok none ∧ s.forward exactScale n = .ok t) ∨
    ∃ t i, ReflTransGen Steps s t ∧ t.step exactScale = .error (stuckAt i) ∧
      s.forward exactScale n = .error (stuckAt i) ∧
      ∀ a : ℕ → ℕ, (∀ j ∈ t.live, a j < size j) → exactScale.invalid ≤ t.total a := by
  induction n generalizing s with
  | zero => exact absurd hn (Nat.not_lt_zero _)
  | succ n ih =>
    rcases h.step_cases with ⟨hs, -⟩ | ⟨i, t, hst, hrd⟩ | ⟨i, hs, hall⟩
    · refine .inl ⟨s, ReflTransGen.refl, hs, ?_⟩
      rw [forward, hs]
      rfl
    · have hrd : Reduces size s t i := hrd.elim (·.toReduces) (·.toReduces)
      have hlen := hrd.length_live h
      have hfr : s.forward exactScale (n + 1) = t.forward exactScale n := by rw [forward, hst, ok_bind]
      rw [hfr]
      rcases ih hrd.sound (by omega) with ⟨u, hrun, hu⟩ | ⟨u, i, hrun, hu⟩
      · exact .inl ⟨u, ReflTransGen.head hst hrun, hu⟩
      · exact .inr ⟨u, i, ReflTransGen.head hst hrun, hu⟩
    · refine .inr ⟨s, i, ReflTransGen.refl, hs, ?_, hall⟩
      rw [forward, hs]
      rfl

/-- If the least total was that of a possible layout, a choice was fixed before a refusal. -/
lemma Underway.forward_cases (h : Underway size s) {n : ℕ} (hn : s.live.length < n) :
    (∃ t, ReflTransGen Steps s t ∧ t.step exactScale = .ok none ∧ s.forward exactScale n = .ok t) ∨
    ∃ t i, ReflTransGen Steps s t ∧ t.step exactScale = .error (stuckAt i) ∧
      t.optimal = false ∧ s.forward exactScale n = .error (stuckAt i) := by
  refine (h.sound.forward_cases hn).imp_right ?_
  rintro ⟨t, i, hrun, hs, hfr, hall⟩
  refine ⟨t, i, hrun, hs, ?_, hfr⟩
  by_contra hopt
  obtain ⟨a, ha, htl⟩ := (h.run hrun).1.feasible (Bool.not_eq_false _ ▸ hopt)
  exact absurd (hall a ha) (not_le.2 htl)

end TensorToolchain.LayoutChoice.Elimination
