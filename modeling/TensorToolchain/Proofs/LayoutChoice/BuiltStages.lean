import TensorToolchain.Proofs.LayoutChoice.StageSteps

/-!
# The stages of a graph

A stage holds a node if its table has an axis for it, and it settles a node that its full table has
an axis for and its table has not. While a node is held, every stage to come that lists a holder
waits for it. Hence a node that is settled is held by no stage to come, so that it is settled once,
and no output holds it.
-/

namespace TensorToolchain.LayoutChoice

open List Setting

/-- The table of a stage has an axis for a node. -/
def Holds (stages : Keyed ℕ (Stage ℚ)) (i x : ℕ) : Prop := x = i ∨ x ∈ neededBy stages i

/-- The full table of a stage has an axis for a node that no stage to come needs. -/
def Settles (p : Setting ℚ) (stages : Keyed ℕ (Stage ℚ)) (i x : ℕ) : Prop :=
  x ∈ p.axesOf stages i ∧ x ∉ neededBy stages i

variable {p : Setting ℚ} {stages stages' : Keyed ℕ (Stage ℚ)} {i j k x : ℕ} {t : Stage ℚ}

/-! ### Stages that agree -/

lemma neededBy_congr (h : stages'.get? i = stages.get? i) : neededBy stages' i = neededBy stages i := by
  rw [neededBy, neededBy, h]

lemma axesOf_congr (h : ∀ j ∈ p.inner i, stages'.get? j = stages.get? j) : p.axesOf stages' i = p.axesOf stages i := by
  rw [axesOf, axesOf, map_congr_left fun j hj => neededBy_congr (h j hj)]

lemma IsStage.congr (hst : IsStage p stages i t)
    (h : ∀ j ∈ p.inner i, stages'.get? j = stages.get? j) : IsStage p stages' i t := by
  have haxs := axesOf_congr h
  have hfl : p.fullAxes stages' i = p.fullAxes stages i := by rw [fullAxes, fullAxes, haxs]
  have hflc : p.fullCost stages' i = p.fullCost stages i := by
    funext a
    refine congrArg (p.keyCost a i + sum ·) (map_congr_left fun j hj => ?_)
    rw [costUpTo, costUpTo, h j (mem_of_mem_filter hj)]
  obtain ⟨hnd, hmem, hmt, hfu, hax, hsn, hls⟩ := hst
  refine ⟨hnd, ?_, hmt, ?_, ?_, ?_, ?_⟩
  · rwa [haxs]
  · rwa [hfl, hflc]
  · rwa [haxs]
  · rwa [haxs]
  · rwa [hfl, hflc]

lemma IsStage.hasTable (hp : p.Proper) (hi : i ∈ p.keys) (hget : stages.get? i = some t)
    (hst : IsStage p stages i t) (hnt : i ∉ t.needed) : HasTable p.choices stages i := by
  obtain ⟨g, hg, -⟩ := hst.least
  refine ⟨t, hget, ⟨?_, hg.wellShaped, fun a _ => ?_⟩, nodup_cons.2 ⟨hnt, hst.needed_nodup⟩⟩
  · rw [hg.shape_eq, map_cons, map_cons, hp.choices_meets i hi]
  · rw [costUpTo, hget]
    rfl

/-! ### Stages of some keys -/

namespace Progress

/-- What holds while the stages are built. Every stage to come that lists a holder of a shared node
waits for the node. All stages that list a holder of a settled node have been built, and no output
holds it. -/
structure Booked (p : Setting ℚ) (done : List ℕ) (s : Progress ℚ) : Prop where
  stage : ∀ i ∈ done, ∃ t, s.stages.get? i = some t ∧ IsStage p s.stages i t
  counted : ∀ j, j ∈ s.counted ↔ ∃ k ∈ done, j ∈ p.inner k
  leads : ∀ i ∈ done, ∀ x ∈ neededBy s.stages i, x ∈ done ∧ x < i ∧ p.inputs.leads x i = true
  shared : ∀ i ∈ done, ∀ x ∈ neededBy s.stages i, 1 < (p.outsOf x).length
  shared_keys : ∀ x ∈ s.waiting.keys, 1 < (p.outsOf x).length
  waits : ∀ i ∈ done, ∀ x, Holds s.stages i x → 1 < (p.outsOf x).length →
    ∀ k ∈ p.outsOf i, k ∉ done → Waits s.waiting x k
  settled : ∀ i ∈ done, ∀ x, Settles p s.stages i x → ∀ j ∈ done, Holds s.stages j x → ∀ k ∈ p.outsOf j, k ∈ done
  once : ∀ i ∈ done, ∀ j ∈ done, ∀ x, Settles p s.stages i x → Settles p s.stages j x → i = j
  outputs : ∀ i ∈ done, ∀ x, Settles p s.stages i x → ∀ o ∈ done, p.outsOf o = [] → ¬ Holds s.stages o x

/-- The stages of all keys below a key have been built. -/
structure Awaits (p : Setting ℚ) (done : List ℕ) (s : Progress ℚ) (i : ℕ) : Prop extends Booked p done s where
  proper : p.Proper
  stageable : p.Stageable
  mem : i ∈ p.keys
  mem_iff : ∀ k, k ∈ done ↔ k ∈ p.keys ∧ k < i

variable {s s' : Progress ℚ} {done : List ℕ}

namespace Awaits

section

variable (h : Awaits p done s i)
include h

lemma holds_spec (hj : j ∈ done) (hx : Holds s.stages j x) : x ∈ done ∧ x ≤ j ∧ p.inputs.leads x j := by
  rcases hx with rfl | hx
  · exact ⟨hj, le_rfl, h.proper.leads_iff.2 (.inl rfl)⟩
  · obtain ⟨hx, hlt, hld⟩ := h.leads j hj x hx
    exact ⟨hx, hlt.le, hld⟩

lemma mem_done_of_mem_inner (hk : k ≤ i) (hj : j ∈ p.inner k) : j ∈ done :=
  (h.mem_iff j).2 ⟨h.proper.mem_keys_of_mem_inner hj, (h.proper.lt_of_mem_inner hj).trans_le hk⟩

lemma mem_outsOf (hj : j ∈ p.inner k) : k ∈ p.outsOf j := (h.stageable.mem_outsOf h.proper).2 (mem_inner.1 hj).1

/-- The axes of a full table come before its node and lead to it. -/
lemma axes_spec (hk : k ≤ i) (hx : x ∈ p.axesOf s.stages k) : x ∈ done ∧ x < k ∧ p.inputs.leads x k := by
  obtain ⟨j, hj, hx⟩ := mem_axesOf.1 hx
  obtain ⟨hx, hle, hld⟩ := h.holds_spec (h.mem_done_of_mem_inner hk hj) hx
  exact ⟨hx, hle.trans_lt (h.proper.lt_of_mem_inner hj), h.proper.leads_iff.2 (.inr ⟨j, (mem_inner.1 hj).1, hld⟩)⟩

lemma ready : s.Ready p i := by
  have hin : ∀ j ∈ p.inner i, j ∈ done := fun j => h.mem_done_of_mem_inner le_rfl
  have hax := fun x => h.axes_spec (x := x) le_rfl
  have hnot : i ∉ done := fun hi => ((h.mem_iff i).1 hi).2.false
  refine ⟨fun j hj => ?_, fun x hx => h.proper.choices_pos ((h.mem_iff x).1 (hax x hx).1).1,
    fun x hx => (hax x hx).2.1, fun j hj => ?_, fun j hj => h.shared j (hin j hj), h.shared_keys, fun x hx hsh => ?_⟩
  · obtain ⟨t, hget, hst⟩ := h.stage j (hin j hj)
    refine hst.hasTable h.proper ((h.mem_iff j).1 (hin j hj)).1 hget fun hmem => ?_
    exact (h.leads j (hin j hj) j (neededBy_eq hget ▸ hmem)).2.1.false
  · rw [contains_iff_mem, h.counted]
    have hj := (mem_inner.1 hj).2
    constructor
    · rintro ⟨k, hk, hjk⟩
      exact ⟨k, ((h.mem_iff k).1 hk).1, ((h.mem_iff k).1 hk).2, (mem_inner.1 hjk).1⟩
    · rintro ⟨k, hk, hki, hjk⟩
      exact ⟨k, (h.mem_iff k).2 ⟨hk, hki⟩, mem_inner.2 ⟨hjk, hj⟩⟩
  · obtain ⟨j, hj, hx⟩ := mem_axesOf.1 hx
    exact h.waits j (hin j hj) x hx hsh i (h.mem_outsOf hj) hnot

/-- What an earlier stage settles is no axis of the next full table. -/
lemma notMem_axesOf (hj : j ∈ done) (hx : Settles p s.stages j x) : x ∉ p.axesOf s.stages i := by
  intro hmem
  obtain ⟨k, hk, hkx⟩ := mem_axesOf.1 hmem
  have hi := h.settled j hj x hx k (h.mem_done_of_mem_inner le_rfl hk) hkx i (h.mem_outsOf hk)
  exact ((h.mem_iff i).1 hi).2.false

/-- A node that leads to a stage is held by it unless it has been settled. -/
lemma holds_or_settled (hx : x ∈ p.keys) (hj : j ∈ done) (hld : p.inputs.leads x j) :
    Holds s.stages j x ∨ ∃ k ∈ done, Settles p s.stages k x := by
  have hp := h.proper
  induction j using Nat.strongRecOn with
  | _ j ih =>
    rcases hp.leads_iff.1 hld with rfl | ⟨k, hk, hxk⟩
    · exact .inl (.inl rfl)
    have hin : k ∈ p.inner j := by
      refine mem_inner.2 ⟨hk, Bool.eq_false_iff.2 fun hbd => ?_⟩
      -- nothing but itself leads to a boundary node
      have hnot : k ∉ p.keys := fun hk => absurd (hp.not_boundary k hk) (by simp [hbd])
      rcases hp.leads_iff.1 hxk with rfl | ⟨l, hl, -⟩
      · exact hnot hx
      · exact hnot (mem_keys_of_mem_inputsOf hl)
    have hkd := h.mem_done_of_mem_inner ((h.mem_iff j).1 hj).2.le hin
    rcases ih k (hp.lt_of_mem_inner hin) hkd hxk with hhl | hst
    · have hax : x ∈ p.axesOf s.stages j := mem_axesOf.2 ⟨k, hin, hhl⟩
      by_cases hnd : x ∈ neededBy s.stages j
      · exact .inl (.inr hnd)
      · exact .inr ⟨j, hj, hax, hnd⟩
    · exact .inr hst

/-! ### The next stage -/

/-- A node that is no shared one and an axis of the next full table leads to the next stage
alone. -/
lemma outsOf_eq_singleton (hsh : (p.outsOf x).length ≤ 1) (hx : x ∈ p.axesOf s.stages i) : p.outsOf x = [i] := by
  obtain ⟨l, hl, hlx⟩ := mem_axesOf.1 hx
  obtain rfl : x = l := hlx.resolve_right fun hx => absurd (h.ready.shared_needed l hl x hx) (not_lt.2 hsh)
  have hout := h.mem_outsOf hl
  obtain ⟨m, hm⟩ := length_eq_one_iff.1 (le_antisymm hsh (length_pos_of_mem hout))
  rw [hm, mem_singleton] at hout
  rw [hm, hout]

/-- All stages that list a holder of a node that the next stage settles have been built. -/
lemma settled_of_adds (had : Adds p s i t s') (hx : x ∈ p.axesOf s.stages i)
    (hnot : x ∉ t.needed) (hj : j ∈ done) (hhl : Holds s.stages j x) (hk : k ∈ p.outsOf j) : k ∈ done ∨ k = i := by
  by_contra hne
  rw [not_or] at hne
  by_cases hsh : 1 < (p.outsOf x).length
  · obtain ⟨hjn, hst | rfl⟩ := (had.closed x hx hnot).resolve_left (by omega)
    · -- the new stage is the only one that waits
      obtain ⟨stages, hstg, hmem⟩ := (h.waits j hj x hhl hsh k hk hne.1).exists_get?
      obtain ⟨stages', hst', hme'⟩ := (h.ready.waits x hx hsh).exists_get?
      rw [hstg, Option.some_inj] at hst'
      subst hst'
      rw [stays, hstg, Option.any_some, bne_eq_false_iff_eq] at hst
      obtain ⟨m, rfl⟩ := length_eq_one_iff.1 hst
      exact hne.2 ((mem_singleton.1 hmem).trans (mem_singleton.1 hme').symm)
    · -- the join closes its first input
      obtain ⟨hjk, hji⟩ := (h.mem_iff j).1 hj
      have hky := mem_keys_of_mem_inputsOf ((h.stageable.mem_outsOf h.proper).1 hk)
      have hle : i ≤ k := by
        by_contra hlt
        exact hne.1 ((h.mem_iff k).2 ⟨hky, not_le.1 hlt⟩)
      exact hne.2 (h.stageable.closes_first i h.mem hjn j hjk hji (h.holds_spec hj hhl).2.2 k
        (h.stageable.outsOf_eq h.proper j ▸ hk) hle)
  · obtain rfl : x = j := hhl.resolve_right fun hx => hsh (h.shared j hj x hx)
    rw [h.outsOf_eq_singleton (not_lt.1 hsh) hx] at hk
    exact hne.2 (mem_singleton.1 hk)

/-- No earlier output holds a node that the next stage settles. -/
lemma not_holds_of_adds (had : Adds p s i t s') (hx : x ∈ p.axesOf s.stages i)
    (hnot : x ∉ t.needed) (hj : j ∈ done) (hout : p.outsOf j = []) : ¬ Holds s.stages j x := by
  intro hhl
  obtain ⟨hxd, hxi, hld⟩ := h.axes_spec le_rfl hx
  have hxk := ((h.mem_iff x).1 hxd).1
  rcases had.closed x hx hnot with hone | ⟨hjn, -⟩
  · obtain rfl : x = j := hhl.resolve_right fun hx => absurd (h.shared j hj x hx) (not_lt.2 hone)
    rw [h.outsOf_eq_singleton hone hx] at hout
    cases hout
  · -- the join closes the node, which leads to the output
    have hcl : p.Closes i x := by
      intro l hkey hli hxl k hk hik
      have hl := (h.mem_iff l).2 ⟨hkey, hli⟩
      rcases h.holds_or_settled hxk hl hxl with hhl | ⟨m, hm, hst⟩
      · refine (h.settled_of_adds had hx hnot hl hhl (h.stageable.outsOf_eq h.proper l ▸ hk)).resolve_left fun hk => ?_
        exact absurd ((h.mem_iff k).1 hk).2 (not_lt.2 hik)
      · exact absurd hx (h.notMem_axesOf hm hst)
    obtain ⟨hjk, hji⟩ := (h.mem_iff j).1 hj
    have hfl := h.stageable.outputs_after i h.mem hjn x hxk hxi.ne hld hcl j hjk hji
      (h.stageable.outsOf_eq h.proper j ▸ hout)
    exact absurd ((h.holds_spec hj hhl).2.2.symm.trans hfl) (by decide)

lemma get?_set_of_mem (hk : k ∈ done) (t : Stage ℚ) : (s.stages.set i t).get? k = s.stages.get? k :=
  Keyed.get?_set_of_ne _ _ ((h.mem_iff k).1 hk).2.ne

end

lemma neededBy_set_self (stages : Keyed ℕ (Stage ℚ)) (i : ℕ) (t : Stage ℚ) :
    neededBy (stages.set i t) i = t.needed := neededBy_eq (Keyed.get?_set_self _ _ _)

section

variable (h : Awaits p done s i)
include h

lemma holds_set (hk : k ∈ done ++ [i]) (hx : Holds (s.stages.set i t) k x) :
    k ∈ done ∧ Holds s.stages k x ∨ k = i ∧ (x = i ∨ x ∈ t.needed) := by
  rcases mem_snoc.1 hk with hk | rfl
  · refine .inl ⟨hk, ?_⟩
    rwa [Holds, neededBy_congr (h.get?_set_of_mem hk t)] at hx
  · refine .inr ⟨rfl, ?_⟩
    rwa [Holds, neededBy_set_self] at hx

lemma settles_set (hk : k ∈ done ++ [i]) (hx : Settles p (s.stages.set i t) k x) :
    k ∈ done ∧ Settles p s.stages k x ∨ k = i ∧ x ∈ p.axesOf s.stages i ∧ x ∉ t.needed := by
  have hax : ∀ k ≤ i, p.axesOf (s.stages.set i t) k = p.axesOf s.stages k := fun k hk =>
    axesOf_congr fun j hj => h.get?_set_of_mem (h.mem_done_of_mem_inner hk hj) t
  rcases mem_snoc.1 hk with hk | rfl
  · refine .inl ⟨hk, ?_⟩
    rwa [Settles, hax k ((h.mem_iff k).1 hk).2.le, neededBy_congr (h.get?_set_of_mem hk t)] at hx
  · refine .inr ⟨rfl, ?_⟩
    rwa [Settles, hax k le_rfl, neededBy_set_self] at hx

lemma not_held_of_settles (had : Adds p s i t s') (hk : k ∈ done ++ [i])
    (hx : Settles p (s.stages.set i t) k x) : ¬ (x = i ∨ x ∈ t.needed) := by
  intro hold
  rcases h.settles_set hk hx with ⟨hkd, hkx⟩ | ⟨-, hx, hnot⟩
  · rcases hold with rfl | hold
    · have hki := ((h.mem_iff k).1 hkd).2
      exact absurd hki (h.axes_spec hki.le hkx.1).2.1.not_gt
    · exact h.notMem_axesOf hkd hkx (had.isStage.needed_mem x hold)
  · rcases hold with rfl | hold
    · exact (h.axes_spec le_rfl hx).2.1.false
    · exact hnot hold

lemma add (had : Adds p s i t s') : Booked p (done ++ [i]) { s' with stages := s'.stages.set i t } := by
  have hin : ∀ k ≤ i, ∀ j ∈ p.inner k, (s.stages.set i t).get? j = s.stages.get? j :=
    fun k hk j hj => h.get?_set_of_mem (h.mem_done_of_mem_inner hk hj) t
  have hnd : ∀ k ∈ done, neededBy (s.stages.set i t) k = neededBy s.stages k := fun k hk =>
    neededBy_congr (h.get?_set_of_mem hk t)
  have hnds := neededBy_set_self s.stages i t
  rw [had.stages_eq]
  refine ⟨fun k hk => ?_, fun j => ?_, fun k hk x hx => ?_, fun k hk x hx => ?_, fun x hx => ?_,
    fun k hk x hx hsh l hl hnot => ?_, fun k hk x hx j hj hjx l hl => ?_,
    fun k hk j hj x hx hx' => ?_, fun k hk x hx o ho hout hox => ?_⟩
  · rcases mem_snoc.1 hk with hk | rfl
    · obtain ⟨t', hgt', hst⟩ := h.stage k hk
      exact ⟨t', (h.get?_set_of_mem hk t).trans hgt', hst.congr (hin k ((h.mem_iff k).1 hk).2.le)⟩
    · exact ⟨t, Keyed.get?_set_self _ _ _, had.isStage.congr (hin k le_rfl)⟩
  · rw [had.counted, h.counted]
    simp
  · rcases mem_snoc.1 hk with hk | rfl
    · rw [hnd k hk] at hx
      obtain ⟨hxd, hr⟩ := h.leads k hk x hx
      exact ⟨mem_append_left _ hxd, hr⟩
    · rw [hnds] at hx
      obtain ⟨hxd, hr⟩ := h.axes_spec le_rfl (had.isStage.needed_mem x hx)
      exact ⟨mem_append_left _ hxd, hr⟩
  · rcases mem_snoc.1 hk with hk | rfl
    · exact h.shared k hk x (hnd k hk ▸ hx)
    · exact had.shared x (hnds ▸ hx)
  · rcases had.keys x hx with hx | ⟨rfl, hsh⟩
    · exact h.shared_keys x hx
    · exact hsh
  · rw [mem_append, mem_singleton, not_or] at hnot
    rcases h.holds_set hk hx with ⟨hk, hx⟩ | ⟨rfl, rfl | hx⟩
    · refine had.kept x ?_ (fun hax => ?_) l hnot.2 (h.waits k hk x hx hsh l hl hnot.1)
      · exact ((h.holds_spec hk hx).2.1.trans_lt ((h.mem_iff k).1 hk).2).ne
      · by_contra hne
        exact not_or.2 hnot (h.settled_of_adds had hax hne hk hx hl)
    · exact had.own hsh l hl
    · exact had.outs x hx l hl
  · rcases h.holds_set hj hjx with ⟨hj, hjx⟩ | ⟨-, hnot⟩
    · rcases h.settles_set hk hx with ⟨hk, hx⟩ | ⟨-, hx, hnot⟩
      · exact mem_append_left _ (h.settled k hk x hx j hj hjx l hl)
      · rw [mem_append, mem_singleton]
        exact h.settled_of_adds had hx hnot hj hjx hl
    · exact absurd hnot (h.not_held_of_settles had hk hx)
  · rcases h.settles_set hk hx with ⟨hk, hx⟩ | ⟨rfl, hx, -⟩
    · rcases h.settles_set hj hx' with ⟨hj, hx'⟩ | ⟨-, hx', -⟩
      · exact h.once k hk j hj x hx hx'
      · exact absurd hx' (h.notMem_axesOf hk hx)
    · rcases h.settles_set hj hx' with ⟨hj, hx'⟩ | ⟨rfl, -⟩
      · exact absurd hx (h.notMem_axesOf hj hx')
      · rfl
  · rcases h.holds_set ho hox with ⟨ho, hox⟩ | ⟨-, hnot⟩
    · rcases h.settles_set hk hx with ⟨hk, hx⟩ | ⟨-, hx, hnot⟩
      · exact h.outputs k hk x hx o ho hout hox
      · exact h.not_holds_of_adds had hx hnot ho hout hox
    · exact absurd hnot (h.not_held_of_settles had hk hx)

end

end Awaits

end Progress

/-! ### The stages of all keys -/

/-- The stages of all keys. Each node is settled by one stage at most, and no output holds a node
that some stage settles. -/
structure Staged (p : Setting ℚ) (stages : Keyed ℕ (Stage ℚ)) : Prop where
  stage : ∀ i ∈ p.keys, ∃ t, stages.get? i = some t ∧ IsStage p stages i t
  needed : ∀ i ∈ p.keys, ∀ x ∈ neededBy stages i, x ∈ p.keys ∧ x < i
  once : ∀ i ∈ p.keys, ∀ j ∈ p.keys, ∀ x, Settles p stages i x → Settles p stages j x → i = j
  outputs : ∀ i ∈ p.keys, ∀ x, Settles p stages i x → ∀ o ∈ p.keys, p.outsOf o = [] → ¬ Holds stages o x

/-- The keys before one of them in the order in which the stages are built are those below it. -/
lemma mem_iff_of_mergeSort_eq {l seen later : List ℕ} (hnd : l.Nodup)
    (h : l.mergeSort = seen ++ i :: later) (k : ℕ) : k ∈ seen ↔ k ∈ l ∧ k < i := by
  have hsr : (seen ++ i :: later).Pairwise (· < ·) := by
    have hle : l.mergeSort.Pairwise (fun a b => decide (a ≤ b) = true) :=
      pairwise_mergeSort (by simp; omega) (by simp; omega) l
    have hne : l.mergeSort.Nodup := (mergeSort_perm l _).nodup_iff.2 hnd
    rw [h] at hle hne
    exact (hle.and hne).imp fun h => lt_of_le_of_ne (of_decide_eq_true h.1) h.2
  have hmem : k ∈ l ↔ k ∈ seen ++ i :: later := by rw [← h, mem_mergeSort]
  obtain ⟨-, hltr, hsn⟩ := pairwise_append.1 hsr
  rw [hmem]
  constructor
  · exact fun hk => ⟨mem_append_left _ hk, hsn k hk i mem_cons_self⟩
  · rintro ⟨hk, hlt⟩
    refine (mem_append.1 hk).resolve_right fun hk => ?_
    rcases mem_cons.1 hk with rfl | hk
    · exact hlt.false
    · exact absurd ((pairwise_cons.1 hltr).1 k hk) hlt.not_gt

lemma buildStages_eq_ok (hp : p.Proper) (hst : p.Stageable) :
    ∃ s n, buildStages exactScale p none = .ok (s, n) ∧ Staged p s.stages := by
  obtain ⟨⟨s, n⟩, hrun, hb⟩ : ∃ c, buildStages exactScale p none = .ok c ∧
      Progress.Booked p p.inputs.keys.mergeSort c.1 := by
    refine foldlM_eq_ok (fun done (c : Progress ℚ × ℕ) => Progress.Booked p done c.1) ?_ ?_
    · exact ⟨nofun, fun j => ⟨nofun, nofun⟩, nofun, nofun, nofun, nofun, nofun, nofun, nofun⟩
    · rintro done i later ⟨s, n⟩ hls hb
      have hdn := mem_iff_of_mergeSort_eq hp.keys_nodup hls
      have hi : i ∈ p.keys := by
        have hmem : i ∈ p.inputs.keys.mergeSort := by rw [hls]; simp
        exact mem_mergeSort.1 hmem
      have haw : Progress.Awaits p done s i := ⟨hb, hp, hst, hi, hdn⟩
      obtain ⟨t, s', had, hads⟩ := Progress.advance_eq_ok hp hst hi haw.ready
      refine ⟨(_, n + t.full.data.size), ?_, haw.add hads⟩
      dsimp only
      rw [had]
      rfl
  have hks : ∀ k ∈ p.keys, k ∈ p.inputs.keys.mergeSort := fun k hk => mem_mergeSort.2 hk
  refine ⟨s, n, hrun, fun i hi => hb.stage i (hks i hi), fun i hi x hx => ?_,
    fun i hi j hj => hb.once i (hks i hi) j (hks j hj), fun i hi x hx o ho => hb.outputs i (hks i hi) x hx o (hks o ho)⟩
  obtain ⟨hx, hlt, -⟩ := hb.leads i (hks i hi) x hx
  exact ⟨mem_mergeSort.1 hx, hlt⟩

/-! ### What the stages add up to

The least cost up to a node is the least full cost of its stage, over the choices at the nodes that
the stage settles. A node that is no output is counted in that of the first key that lists it. Hence
the least costs up to the outputs add up to the total cost at most, and to just that if no stage can
do better.
-/

open Tensor (Fits Shows)

/-! ### Outputs -/

lemma Links.mem_keys_reversed {links : Links} :
    k ∈ (Links.reversed links).keys ↔ k ∈ links.keys ∨ ∃ e ∈ links.entries, k ∈ e.2 := by
  suffices hfl : ∀ (pairs : List (ℕ × ℕ)) (out : Links),
      k ∈ (pairs.foldl lead out).keys ↔ k ∈ out.keys ∨ ∃ pair ∈ pairs, pair.2 = k by
    rw [reversed_eq, hfl, pairs]
    simp
  intro pairs
  induction pairs with
  | nil => simp
  | cons pair pairs ih =>
    intro out
    rw [foldl_cons, ih, lead, Keyed.mem_keys_set]
    simp only [mem_cons, exists_eq_or_imp]
    tauto

namespace Setting

/-- The outputs: the nodes that lead to none. -/
def outputs (p : Setting ℚ) : List ℕ := (p.outs.entries.filter (·.2.isEmpty)).map Prod.fst

variable {a : ℕ → ℕ}

lemma mem_newInputs : j ∈ p.newInputs i ↔ j ∈ p.inner i ∧ ∀ k ∈ p.keys, k < i → j ∉ p.inputsOf k := by
  rw [newInputs, mem_filter, decide_eq_true_iff]

section

variable (hp : p.Proper)
include hp

lemma Proper.nodup_outputs : p.outputs.Nodup := by
  refine Nodup.sublist (filter_sublist.map Prod.fst) ?_
  rw [hp.outs_eq]
  exact Links.nodup_keys_reversed hp.keys_nodup

variable (hst : p.Stageable)
include hst

lemma mem_outputs : k ∈ p.outputs ↔ k ∈ p.keys ∧ p.outsOf k = [] := by
  have hget : k ∈ p.outputs ↔ p.outs.get? k = some [] := by
    rw [outputs, mem_map]
    constructor
    · rintro ⟨e, he, rfl⟩
      obtain ⟨he, hnil⟩ := mem_filter.1 he
      rw [← isEmpty_iff.1 hnil]
      refine Keyed.get?_of_mem ?_ he
      rw [hp.outs_eq]
      exact Links.nodup_keys_reversed hp.keys_nodup
    · exact fun h => ⟨(k, []), mem_filter.2 ⟨Keyed.mem_of_get? h, rfl⟩, rfl⟩
  rw [hget]
  constructor
  · intro h
    refine ⟨?_, by rw [outsOf, h]; rfl⟩
    have hkey := Keyed.mem_keys_of_get? h
    rw [hp.outs_eq, Links.mem_keys_reversed] at hkey
    refine hkey.resolve_right ?_
    rintro ⟨e, he, hk⟩
    have hin : k ∈ p.inputsOf e.1 := by rwa [inputsOf, Keyed.get?_of_mem hp.keys_nodup he]
    have hout := (hst.mem_outsOf hp).2 hin
    rw [outsOf, h] at hout
    exact not_mem_nil hout
  · rintro ⟨hk, hout⟩
    have hkey : k ∈ p.outs.keys := by
      rw [hp.outs_eq]
      exact Links.mem_keys_reversed.2 (.inl hk)
    obtain ⟨l, hl⟩ := Keyed.exists_get? hkey
    rw [outsOf, hl] at hout
    rw [hl, ← hout]
    rfl

/-! ### Where a node is counted -/

lemma newInputs_perm : (p.keys.flatMap p.newInputs).Perm (p.keys.filter (p.outsOf · ≠ [])) := by
  refine (perm_ext_iff_of_nodup ?_ (hp.keys_nodup.filter _)).2 fun j => ?_
  · refine nodup_flatMap.2 ⟨fun i _ => (hst.nodup_inner i).filter _, ?_⟩
    refine (hp.keys_nodup.imp_of_mem ?_)
    intro i k hi hk hne j hji hjk
    obtain ⟨hji, hi'⟩ := mem_newInputs.1 hji
    obtain ⟨hjk, hk'⟩ := mem_newInputs.1 hjk
    rcases lt_or_gt_of_ne hne with hlt | hlt
    · exact hk' i hi hlt (mem_inner.1 hji).1
    · exact hi' k hk hlt (mem_inner.1 hjk).1
  · rw [mem_flatMap, mem_filter, decide_eq_true_iff]
    constructor
    · rintro ⟨i, -, hj⟩
      have hj := (mem_newInputs.1 hj).1
      refine ⟨hp.mem_keys_of_mem_inner hj, ne_nil_of_mem (a := i) ?_⟩
      exact (hst.mem_outsOf hp).2 (mem_inner.1 hj).1
    · rintro ⟨hj, hout⟩
      -- the first key that lists the node
      have hex : ∃ i, j ∈ p.inputsOf i := by
        obtain ⟨i, hi⟩ := exists_mem_of_ne_nil _ hout
        exact ⟨i, (hst.mem_outsOf hp).1 hi⟩
      refine ⟨.find hex, mem_keys_of_mem_inputsOf (Nat.find_spec hex), mem_newInputs.2
        ⟨mem_inner.2 ⟨Nat.find_spec hex, hp.not_boundary j hj⟩, fun k _ hk => Nat.find_min hex hk⟩⟩

/-- The full costs of all stages are the total cost with the least costs up to all nodes but the
outputs. -/
lemma sum_fullCost (stages : Keyed ℕ (Stage ℚ)) (a : ℕ → ℕ) :
    (p.keys.map (p.fullCost stages · a)).sum + (p.outputs.map (costUpTo stages · a)).sum =
      p.total a + (p.keys.map (costUpTo stages · a)).sum := by
  have hot : p.outputs.Perm (p.keys.filter fun k => !decide (p.outsOf k ≠ [])) := by
    refine (perm_ext_iff_of_nodup hp.nodup_outputs (hp.keys_nodup.filter _)).2 fun k => ?_
    rw [mem_outputs hp hst]
    simp
  have hks : (p.keys.map (costUpTo stages · a)).sum = ((p.keys.flatMap p.newInputs).map (costUpTo stages · a)).sum +
        (p.outputs.map (costUpTo stages · a)).sum := by
    rw [← sum_append, ← map_append]
    refine (Perm.map _ ?_).sum_eq
    exact ((filter_append_perm _ _).symm.trans ((newInputs_perm hp hst).symm.append hot.symm))
  have hnew : ((p.keys.flatMap p.newInputs).map (costUpTo stages · a)).sum =
      (p.keys.map fun i => ((p.newInputs i).map (costUpTo stages · a)).sum).sum := by
    rw [flatMap, map_flatten, sum_flatten, map_map, map_map]
    rfl
  have hfl : (p.keys.map (p.fullCost stages · a)).sum =
      p.total a + (p.keys.map fun i => ((p.newInputs i).map (costUpTo stages · a)).sum).sum := by
    rw [total, ← sum_map_add]
    rfl
  rw [hfl, hks, hnew, add_assoc]

end

end Setting

/-! ### The least costs up to a node -/

namespace Staged

open Setting

lemma meets_mem_fullAxes (hp : p.Proper) (hi : i ∈ p.keys) (stages : Keyed ℕ (Stage ℚ)) :
    p.meets i ∈ p.fullAxes stages i := by
  cases htgt : p.graph.isTarget i with
  | true =>
    rw [meets_of_isTarget htgt]
    exact mem_fullAxes.2 (.inl ⟨htgt, rfl⟩)
  | false =>
    obtain ⟨hsm, rest, hins⟩ := hp.inputsOf_join hi htgt
    refine mem_fullAxes_of_mem_axesOf (mem_axesOf.2 ⟨p.meets i, ?_, .inl rfl⟩)
    rw [hsm, hins]
    exact mem_cons_self

section

variable (hs : Staged p stages)
include hs

lemma mem_keys_of_mem_axesOf (hp : p.Proper) (hx : x ∈ p.axesOf stages i) : x ∈ p.keys := by
  obtain ⟨j, hj, rfl | hx⟩ := mem_axesOf.1 hx
  · exact hp.mem_keys_of_mem_inner hj
  · exact (hs.needed j (hp.mem_keys_of_mem_inner hj) x hx).1

lemma lt_of_mem_axesOf (hp : p.Proper) (hx : x ∈ p.axesOf stages i) : x < i := by
  obtain ⟨j, hj, rfl | hx⟩ := mem_axesOf.1 hx
  · exact hp.lt_of_mem_inner hj
  · exact (hs.needed j (hp.mem_keys_of_mem_inner hj) x hx).2.trans (hp.lt_of_mem_inner hj)

lemma nodup_neededBy (hi : i ∈ p.keys) : (i :: neededBy stages i).Nodup := by
  obtain ⟨t, hget, hst⟩ := hs.stage i hi
  refine nodup_cons.2 ⟨fun hmem => (hs.needed i hi i hmem).2.false, ?_⟩
  rw [neededBy_eq hget]
  exact hst.needed_nodup

lemma mem_keys_of_mem_fullAxes (hp : p.Proper) (hi : i ∈ p.keys) (hx : x ∈ p.fullAxes stages i) : x ∈ p.keys := by
  rcases mem_fullAxes.1 hx with ⟨-, rfl⟩ | hx
  · exact hi
  · exact hs.mem_keys_of_mem_axesOf hp hx

lemma exists_leastOver (hi : i ∈ p.keys) :
    ∃ g, LeastOver p.choices (p.meets i :: neededBy stages i) (p.fullAxes stages i) g (p.fullCost stages i) ∧
      ∀ a, Fits p.choices (p.meets i :: neededBy stages i) a → a i = a (p.meets i) → costUpTo stages i a = g a := by
  obtain ⟨t, hget, hst⟩ := hs.stage i hi
  obtain ⟨g, hg, hls⟩ := hst.least
  rw [neededBy_eq hget]
  refine ⟨g, hls, fun a ha htie => ?_⟩
  rw [← hg.get_eq a ha, costUpTo, hget, Option.map_some, Option.getD_some, map_cons, map_cons, htie]

lemma needed_mem_fullAxes (hi : i ∈ p.keys) (hx : x ∈ neededBy stages i) : x ∈ p.fullAxes stages i := by
  obtain ⟨t, hget, hst⟩ := hs.stage i hi
  rw [neededBy_eq hget] at hx
  exact mem_fullAxes_of_mem_axesOf (hst.needed_mem x hx)

lemma costUpTo_le_fullCost (hp : p.Proper) (hi : i ∈ p.keys) (ha : p.Assigns a) :
    costUpTo stages i a ≤ p.fullCost stages i a := by
  obtain ⟨g, hls, hg⟩ := hs.exists_leastOver hi
  have hft : Fits p.choices (p.fullAxes stages i) a := fun x hx => (ha x (hs.mem_keys_of_mem_fullAxes hp hi hx)).1
  rw [hg a (hft.mono fun x hx => ?_) (ha i hi).2]
  · exact hls.le a hft
  · rcases mem_cons.1 hx with rfl | hx
    · exact meets_mem_fullAxes hp hi stages
    · exact hs.needed_mem_fullAxes hi hx

lemma sum_outputs_le_total (hp : p.Proper) (hst : p.Stageable) (ha : p.Assigns a) :
    (p.outputs.map (costUpTo stages · a)).sum ≤ p.total a := by
  have hle : (p.keys.map (costUpTo stages · a)).sum ≤ (p.keys.map (p.fullCost stages · a)).sum :=
    sum_le_sum fun i hi => hs.costUpTo_le_fullCost hp hi ha
  linarith [sum_fullCost hp hst stages a]

end

lemma sum_outputs_eq_total (hp : p.Proper) (hst : p.Stageable)
    (h : ∀ i ∈ p.keys, costUpTo stages i a = p.fullCost stages i a) :
    (p.outputs.map (costUpTo stages · a)).sum = p.total a := by
  have hsum := sum_fullCost hp hst stages a
  rw [map_congr_left h] at hsum
  linarith

end Staged

end TensorToolchain.LayoutChoice
