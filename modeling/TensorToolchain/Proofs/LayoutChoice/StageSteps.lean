import TensorToolchain.Proofs.LayoutChoice.StageTables

/-!
# One stage more

The table of the stage for the next key is the full one, minimised over the nodes that no stage to
come needs. The stages that the new one leads to wait in its place for all that it still needs.
-/

namespace TensorToolchain.LayoutChoice

open List Tensor
open Tensor (Fits Shows)

variable {x k : ℕ} {waiting : Links} {counted : List ℕ}

/-- A stage to come waits for a node. -/
def Waits (waiting : Links) (x k : ℕ) : Prop := k ∈ (waiting.get? x).getD []

lemma Waits.exists_get? (h : Waits waiting x k) : ∃ stages, waiting.get? x = some stages ∧ k ∈ stages := by
  obtain ⟨stages, hst, -, hk⟩ := Links.exists_entry h
  exact ⟨stages, hst, hk⟩

lemma Waits.of_get?_eq {waiting' : Links} (h : Waits waiting x k)
    (heq : waiting'.get? x = waiting.get? x) : Waits waiting' x k := by
  rwa [Waits, heq]

lemma waits_set {y : ℕ} {stages : List ℕ} :
    Waits (waiting.set x stages) y k ↔ if y = x then k ∈ stages else Waits waiting y k := by
  rw [Waits, Keyed.get?_set]
  split_ifs
  · rw [Option.getD_some]
  · rfl

/-- A stage of a node, given the stages before it. A target no longer needs one node at most. -/
structure IsStage (p : Setting ℚ) (stages : Keyed ℕ (Stage ℚ)) (i : ℕ) (t : Stage ℚ) : Prop where
  needed_nodup : t.needed.Nodup
  needed_mem : ∀ x ∈ t.needed, x ∈ p.axesOf stages i
  meets_notMem : p.meets i ∉ t.needed
  full : t.full.Shows p.choices (p.fullAxes stages i) (p.fullCost stages i)
  axes : p.graph.isTarget i = false → t.axes = some (p.axesOf stages i)
  single : p.graph.isTarget i = true → p.axesOf stages i = t.needed ∨ ∃ j, p.axesOf stages i = j :: t.needed
  least : ∃ g, t.states.Shows p.choices (p.meets i :: t.needed) g ∧
    LeastOver p.choices (p.meets i :: t.needed) (p.fullAxes stages i) g (p.fullCost stages i)

namespace Progress

open Setting

variable {p : Setting ℚ} {s : Progress ℚ} {i j : ℕ} {needed : List ℕ}

/-! ### Handing over -/

/-- Who waits for what after a stage was added that needs some nodes. -/
structure HandedOver (p : Setting ℚ) (i : ℕ) (needed : List ℕ) (before after : Links) : Prop where
  kept : ∀ x ≠ i, ∀ k ≠ i, Waits before x k → Waits after x k
  outs : ∀ x ∈ needed, x ≠ i → ∀ k ∈ p.outsOf i, Waits after x k
  own : 1 < (p.outsOf i).length → ∀ k ∈ p.outsOf i, Waits after i k
  keys : ∀ x ∈ after.keys, x ∈ before.keys ∨ x = i ∧ 1 < (p.outsOf i).length

/-- Who waits for what after the stages that a node leads to took its place on the lists of some
nodes. -/
structure Replaced (i : ℕ) (outs : List ℕ) (before : Links) (seen : List ℕ) (after : Links) : Prop where
  kept : ∀ x, ∀ k ≠ i, Waits before x k → Waits after x k
  outs : ∀ x ∈ seen, ∀ k ∈ outs, Waits after x k
  same : ∀ x ∉ seen, after.get? x = before.get? x
  keys : ∀ x ∈ after.keys, x ∈ before.keys

lemma exists_replaced (outs : List ℕ) (hnd : needed.Nodup) (hwt : ∀ x ∈ needed, Waits waiting x i) :
    ∃ now, needed.foldlM (fun (now : Links) k => do
        let stages ← orFail .missingKey (now.get? k)
        demand (stages.contains i) .missingKey
        return now.set k (outs.foldl addNew (stages.erase i))) waiting = .ok now ∧
      Replaced i outs waiting needed now := by
  refine foldlM_eq_ok _ ⟨fun _ _ _ h => h, fun _ h => absurd h not_mem_nil, fun _ _ => rfl, fun _ h => h⟩ ?_
  rintro seen x later now hls ⟨hkp, hot, hsm, hks⟩
  have hx : x ∈ needed := by rw [hls]; simp
  have hsn := notMem_seen hnd hls
  obtain ⟨stages, hst, hmem⟩ := (hwt x hx).exists_get?
  rw [← hsm x hsn] at hst
  refine ⟨_, by rw [hst, orFail_some, ok_bind, contains_iff_mem.2 hmem]; rfl,
    fun y k hk hyk => ?_, fun y hy k hk => ?_, fun y hy => ?_, fun y hy => ?_⟩
  · rw [waits_set]
    split_ifs with hyx
    · have := hkp y k hk hyk
      rw [hyx, Waits, hst] at this
      exact mem_foldl_addNew.2 (.inl ((mem_erase_of_ne hk).2 this))
    · exact hkp y k hk hyk
  · rw [waits_set]
    split_ifs with hyx
    · exact mem_foldl_addNew.2 (.inr hk)
    · exact hot y ((mem_append.1 hy).resolve_right fun h => hyx (mem_singleton.1 h)) k hk
  · simp only [mem_append, mem_singleton, not_or] at hy
    rw [Keyed.get?_set, if_neg hy.2, hsm y hy.1]
  · rcases Keyed.mem_keys_set.1 hy with rfl | hy
    · exact hks y (Keyed.mem_keys_of_get? hst)
    · exact hks y hy

lemma handOver_eq_ok (hnd : needed.Nodup) (hwt : ∀ x ∈ needed, Waits s.waiting x i) :
    ∃ waiting, s.handOver p i needed = .ok { s with waiting } ∧ HandedOver p i needed s.waiting waiting := by
  obtain ⟨now, hnow, hkp, hot, -, hks⟩ := exists_replaced _ hnd hwt
  by_cases hsh : 1 < (p.outsOf i).length
  · refine ⟨now.set i ((p.outsOf i).foldl addNew []), ?_, ⟨fun x hx k hk hxk => ?_,
      fun x hx hxi k hk => ?_, fun _ k hk => ?_, fun x hx => ?_⟩⟩
    · rw [handOver, hnow, ok_bind, if_pos hsh]
      rfl
    · rw [waits_set, if_neg hx]
      exact hkp x k hk hxk
    · rw [waits_set, if_neg hxi]
      exact hot x hx k hk
    · rw [waits_set, if_pos rfl]
      exact mem_foldl_addNew.2 (.inr hk)
    · rcases Keyed.mem_keys_set.1 hx with rfl | hx
      · exact .inr ⟨rfl, hsh⟩
      · exact .inl (hks x hx)
  · refine ⟨now, ?_, ⟨fun x _ k hk hxk => hkp x k hk hxk, fun x hx _ k hk => hot x hx k hk,
      (absurd · hsh), fun x hx => .inl (hks x hx)⟩⟩
    rw [handOver, hnow, ok_bind, if_neg hsh]
    rfl

/-! ### The stage of a target -/

/-- What has to hold before the stage of a node can be added. -/
structure Ready (p : Setting ℚ) (s : Progress ℚ) (i : ℕ) : Prop where
  tables : ∀ j ∈ p.inner i, HasTable p.choices s.stages j
  positive : ∀ x ∈ p.axesOf s.stages i, 0 < p.choices x
  earlier : ∀ x ∈ p.axesOf s.stages i, x < i
  counts : s.Counts p i
  shared_needed : ∀ j ∈ p.inner i, ∀ x ∈ neededBy s.stages j, 1 < (p.outsOf x).length
  shared_keys : ∀ x ∈ s.waiting.keys, 1 < (p.outsOf x).length
  waits : ∀ x ∈ p.axesOf s.stages i, 1 < (p.outsOf x).length → Waits s.waiting x i

/-- What adding the stage of a node does. A node of its full table that it does not need leads to
one node only, or the new stage is that of a join, and no other stage waits for the node, or the
join has its layout. -/
structure Adds (p : Setting ℚ) (s : Progress ℚ) (i : ℕ) (t : Stage ℚ) (s' : Progress ℚ) : Prop where
  isStage : IsStage p s.stages i t
  stages_eq : s'.stages = s.stages
  counted : ∀ j, j ∈ s'.counted ↔ j ∈ s.counted ∨ j ∈ p.inner i
  shared : ∀ x ∈ t.needed, 1 < (p.outsOf x).length
  closed : ∀ x ∈ p.axesOf s.stages i, x ∉ t.needed → (p.outsOf x).length ≤ 1 ∨
      p.graph.isTarget i = false ∧ (stays s.waiting x = false ∨ x = p.meets i)
  kept : ∀ x ≠ i, (x ∈ p.axesOf s.stages i → x ∈ t.needed) → ∀ k ≠ i, Waits s.waiting x k → Waits s'.waiting x k
  outs : ∀ x ∈ t.needed, ∀ k ∈ p.outsOf i, Waits s'.waiting x k
  own : 1 < (p.outsOf i).length → ∀ k ∈ p.outsOf i, Waits s'.waiting i k
  keys : ∀ x ∈ s'.waiting.keys, x ∈ s.waiting.keys ∨ x = i ∧ 1 < (p.outsOf i).length

section

variable (hready : s.Ready p i) (hcounted : ∀ j, j ∈ counted ↔ j ∈ s.counted ∨ j ∈ p.inner i)
include hready hcounted

/-- A stage is added from what waits once the nodes that it does not need have no list any more. -/
lemma exists_adds {t : Stage ℚ} (ht : IsStage p s.stages i t) (hsh : ∀ x ∈ t.needed, 1 < (p.outsOf x).length)
    (hcl : ∀ x ∈ p.axesOf s.stages i, x ∉ t.needed → (p.outsOf x).length ≤ 1 ∨
      p.graph.isTarget i = false ∧ (stays s.waiting x = false ∨ x = p.meets i))
    (hsm : ∀ x, (x ∈ p.axesOf s.stages i → x ∈ t.needed) → waiting.get? x = s.waiting.get? x)
    (hks : ∀ x ∈ waiting.keys, x ∈ s.waiting.keys) :
    ∃ s', handOver p i t.needed ⟨s.stages, counted, waiting⟩ = .ok s' ∧ Adds p s i t s' := by
  have hne : ∀ x ∈ t.needed, x ≠ i := fun x hx => (hready.earlier x (ht.needed_mem x hx)).ne
  obtain ⟨after, haft, hov⟩ := handOver_eq_ok
    (s := ⟨s.stages, counted, waiting⟩) ht.needed_nodup fun x hx =>
      (hready.waits x (ht.needed_mem x hx) (hsh x hx)).of_get?_eq (hsm x fun _ => hx)
  exact ⟨_, haft, ht, rfl, hcounted, hsh, hcl, fun x hx hax k hk hw => hov.kept x hx k hk (hw.of_get?_eq (hsm x hax)),
    fun x hx => hov.outs x hx (hne x hx), hov.own, fun x hx => (hov.keys x hx).imp_left (hks x)⟩

lemma exists_adds_of_isTarget (htgt : p.graph.isTarget i) {axes : List ℕ}
    (hax : p.axesOf s.stages i = axes) (t : Stage ℚ) (g : (ℕ → ℕ) → ℚ)
    (hnd : t.needed.Nodup) (hsn : axes = t.needed ∨ ∃ j, axes = j :: t.needed)
    (hsh : ∀ x ∈ t.needed, 1 < (p.outsOf x).length) (hcl : ∀ x ∈ axes, x ∉ t.needed → (p.outsOf x).length ≤ 1)
    (hfl : t.full.Shows p.choices (i :: axes) (p.fullCost s.stages i)) (hg : t.states.Shows p.choices (i :: t.needed) g)
    (hls : LeastOver p.choices (i :: t.needed) (i :: axes) g (p.fullCost s.stages i)) :
    ∃ s', handOver p i t.needed { s with counted } = .ok s' ∧ Adds p s i t s' := by
  subst hax
  have hsub : ∀ x ∈ t.needed, x ∈ p.axesOf s.stages i := fun x hx => by
    rcases hsn with h | ⟨j, h⟩
    · rw [h]
      exact hx
    · rw [h]
      exact mem_cons_of_mem j hx
  rw [← fullAxes_of_isTarget htgt] at hfl hls
  have hmt := meets_of_isTarget htgt
  refine exists_adds hready hcounted ⟨hnd, hsub, fun h => ?_, hfl,
    fun hjn => absurd (htgt.symm.trans hjn) (by decide), fun _ => hsn, g, ?_⟩ hsh
    (fun x hx hnot => .inl (hcl x hx hnot)) (fun _ _ => rfl) fun _ => id
  · rw [hmt] at h
    exact (hready.earlier i (hsub i h)).false
  · rw [hmt]
    exact ⟨hg, hls⟩

/-- The stage of a join is added once its table is known: it needs the nodes for which stages to
come wait besides it, and the others have no list any more. -/
lemma exists_adds_of_join (hjn : p.graph.isTarget i = false) (hndp : (p.axesOf s.stages i).Nodup)
    {tail : List ℕ} (hax : p.axesOf s.stages i = p.meets i :: tail)
    (hwt : ∀ x, waiting.get? x = if x ∈ tail ∧ stays s.waiting x = false then none else s.waiting.get? x)
    (t : Stage ℚ) (g : (ℕ → ℕ) → ℚ) (htx : t.axes = some (p.axesOf s.stages i))
    (hnd : t.needed = tail.filter (stays s.waiting))
    (hfl : t.full.Shows p.choices (p.axesOf s.stages i) (p.fullCost s.stages i))
    (hg : t.states.Shows p.choices (p.meets i :: t.needed) g)
    (hls : LeastOver p.choices (p.meets i :: t.needed) (p.axesOf s.stages i) g (p.fullCost s.stages i)) :
    ∃ s', handOver p i t.needed ⟨s.stages, counted, waiting⟩ = .ok s' ∧ Adds p s i t s' := by
  obtain ⟨hnt, htl⟩ := nodup_cons.1 (hax ▸ hndp)
  have hmem : ∀ x, x ∈ t.needed ↔ x ∈ tail ∧ stays s.waiting x = true := fun x => by rw [hnd, mem_filter]
  rw [← fullAxes_of_join hjn] at hfl hls
  refine exists_adds hready hcounted ⟨hnd ▸ htl.filter _, fun x hx => ?_,
      fun h => hnt ((hmem _).1 h).1, hfl, fun _ => htx,
      fun htgt => absurd (htgt.symm.trans hjn) (by decide), g, hg, hls⟩
    (fun x hx => ?_) (fun x hx hnot => ?_) (fun x hx => ?_) fun x hx => ?_
  · rw [hax]
    exact mem_cons_of_mem _ ((hmem x).1 hx).1
  · obtain ⟨stages, hstg, -⟩ := (Option.any_eq_true _ _).1 ((hmem x).1 hx).2
    exact hready.shared_keys x (Keyed.mem_keys_of_get? hstg)
  · rw [hax] at hx
    rcases mem_cons.1 hx with rfl | hx
    · exact .inr ⟨hjn, .inr rfl⟩
    · refine .inr ⟨hjn, .inl (Bool.eq_false_iff.2 fun hst => hnot ?_)⟩
      exact (hmem x).2 ⟨hx, hst⟩
  · rw [hwt, if_neg]
    rintro ⟨htl, hst⟩
    have := ((hmem x).1 (hx (hax ▸ mem_cons_of_mem _ htl))).2
    exact absurd (this.symm.trans hst) (by decide)
  · rw [Keyed.mem_keys, hwt] at hx
    rw [Keyed.mem_keys]
    split_ifs at hx
    · exact absurd hx (by simp)
    · exact hx

end

lemma operatorStage_of_isBoundary (htgt : p.graph.isTarget i)
    (hins : p.inputsOf i = [j]) (hb : p.graph.isBoundary j) (hin : p.inner i = [])
    (hready : s.Ready p i) : ∃ t s', s.operatorStage exactScale p i = .ok (t, s') ∧ Adds p s i t s' := by
  have hax : p.axesOf s.stages i = [] := by rw [axesOf, hin]; rfl
  have hsh : Shows p.choices ⟨[p.choices i], (p.costs i).toArray⟩ [i] (p.fullCost s.stages i) := by
    refine ⟨rfl, ?_, fun a _ => ?_⟩
    · rw [WellShaped, volume_cons, volume_nil, mul_one]
      rfl
    · have hcs : p.fullCost s.stages i a = (p.costs i).getD (a i) 0 := by
        have hnew : p.newInputs i = [] := by rw [newInputs, hin]; rfl
        rw [fullCost, keyCost, if_pos htgt, hnew, hin]
        simp
      rw [hcs, Tensor.get]
      simp [Array.getD_eq_getD_getElem?]
      rfl
  have hget : ((p.inputs.get? i).getD []).head? = some j := congrArg head? hins
  have hcounted : ∀ k, k ∈ s.counted ↔ k ∈ s.counted ∨ k ∈ p.inner i := fun k => by simp [hin]
  obtain ⟨s', hov, had⟩ := exists_adds_of_isTarget hready hcounted htgt hax
    ⟨[], _, ⟨[p.choices i], (p.costs i).toArray⟩, none, true⟩ _ nodup_nil
    (.inl rfl) (fun x hx => absurd hx not_mem_nil)
    (fun x hx => absurd hx not_mem_nil) hsh hsh (.refl _ _ _)
  refine ⟨_, s', ?_, had⟩
  rw [operatorStage, hget, orFail_some, ok_bind, if_pos hb]
  exact congrArg (· >>= fun s' => Except.ok (_, s')) hov

lemma map_idxOf_self {l : List ℕ} (h : l.Nodup) : l.map l.idxOf = List.range l.length := by
  refine ext_getElem (by simp) fun k hk _ => ?_
  rw [getElem_map, h.idxOf_getElem k (by simpa using hk), getElem_range]

lemma filter_range_succ (n : ℕ) : (List.range (n + 1)).filter (· != 0) = (List.range n).map Nat.succ := by
  rw [range_succ_eq_map, filter_cons_of_neg (by simp), filter_map]
  refine congrArg _ (filter_eq_self.2 fun k _ => rfl)

lemma pick_others (x : ℕ) (xs : List ℕ) : pick (x :: xs) ((List.range (xs.length + 1)).filter (· != 0)) = xs := by
  rw [filter_range_succ, pick]
  refine ext_getElem (by simp) fun k hk hk' => ?_
  simp [hk']

variable (hp : p.Proper) (hst : p.Stageable) (hi : i ∈ p.keys)
include hp hst hi

lemma operatorStage_of_inner (htgt : p.graph.isTarget i) (hins : p.inputsOf i = [j]) (hin : p.inner i = [j])
    (hready : s.Ready p i) : ∃ t s', s.operatorStage exactScale p i = .ok (t, s') ∧ Adds p s i t s' := by
  have hj : j ∈ p.inner i := by rw [hin]; exact mem_cons_self
  obtain ⟨before, hbef, hsts, hnd⟩ := hready.tables j hj
  have hne := neededBy_eq hbef
  have hax : p.axesOf s.stages i = j :: before.needed := by rw [axesOf_of_inner_eq_singleton hin (hne ▸ hnd), hne]
  obtain ⟨full, hfl, hsh⟩ := operatorTable_eq_ok hp hi htgt hin hsts hready.counts
    fun k hk => hready.positive k (hax ▸ mem_cons_of_mem j hk)
  have hget : ((p.inputs.get? i).getD []).head? = some j := congrArg head? hins
  have hb : p.graph.isBoundary j = false := (mem_inner.1 hj).2
  have hcounted : ∀ k, k ∈ addNew s.counted j ↔ k ∈ s.counted ∨ k ∈ p.inner i := fun k => by
    rw [mem_addNew, hin, mem_singleton]
  have hshr : ∀ x ∈ before.needed, 1 < (p.outsOf x).length := fun x hx => hready.shared_needed j hj x (hne ▸ hx)
  have had := exists_adds_of_isTarget hready hcounted htgt hax
  rw [operatorStage, hget, orFail_some, ok_bind, hb, if_neg Bool.false_ne_true, stage,
    hbef, orFail_some, ok_bind, hfl, ok_bind]
  dsimp only
  by_cases hone : (p.outsOf j).length = 1
  · have hpos : 0 < p.choices j := hready.positive j (hax ▸ mem_cons_self)
    have hown : ([i] ++ j :: before.needed).Nodup := nodup_cons.2 ⟨fun h => (hready.earlier i (hax ▸ h)).false, hnd⟩
    obtain ⟨states, hrun, hls⟩ := leastAlong_eq_ok hsh hpos hown
    obtain ⟨s', hov, hs'⟩ := had ⟨before.needed, states, full, some _, false⟩ _ (nodup_cons.1 hnd).2
      (.inr ⟨j, rfl⟩) hshr
      (fun x hx hnot => by rw [(mem_cons.1 hx).resolve_right hnot, hone]) hsh hls
      (leastOver_leastAt hpos hown)
    refine ⟨_, s', ?_, hs'⟩
    rw [length_singleton] at hrun
    rw [if_pos (beq_iff_eq.2 hone), hrun, hov]
    rfl
  · have hmn : 1 < (p.outsOf j).length := by
      have hpos : 0 < (p.outsOf j).length := length_pos_of_mem (by
        rw [hst.outsOf_eq hp, hp.mem_consumers, hins]
        exact mem_cons_self)
      omega
    obtain ⟨s', hov, hs'⟩ := had ⟨j :: before.needed, full, full,
        some (i :: j :: before.needed), false⟩ _ hnd (.inl rfl)
      (fun x hx => by
        rcases mem_cons.1 hx with rfl | hx
        · exact hmn
        · exact hshr x hx)
      (fun x hx hnot => absurd hx hnot) hsh hsh (.refl _ _ _)
    refine ⟨_, s', ?_, hs'⟩
    rw [if_neg (by simpa using hone), hov]
    rfl

/-! ### The stage of a join -/

lemma exists_joinedCosts (hjn : p.graph.isTarget i = false) (hcn : s.Counts p i) {first : Aligned ℚ}
    {rest : List (Aligned ℚ)} (hall : List.Forall₂ (fun j => AlignedTo p.choices
      (p.axesOf s.stages i) j (costUpTo s.stages j)) (p.inner i) (first :: rest)) :
    ∃ costs, (List.range (volume ((p.axesOf s.stages i).map p.choices))).mapM
        (joinedCost exactScale p s.counted first rest) = .ok costs ∧
      Shows p.choices ⟨(p.axesOf s.stages i).map p.choices, costs.toArray⟩ (p.axesOf s.stages i)
        (p.fullCost s.stages i) := by
  have hnd := nodup_axesOf hst s.stages i
  set axes := p.axesOf s.stages i with hax
  refine ⟨(range _).map fun e => p.fullCost s.stages i
      (choicesAt axes (indexAt (axes.map p.choices) e)),
    mapM_eq_ok fun e he => ?_, shows_mk fun a ha => ?_⟩
  · have he := mem_range.1 he
    have hin := inside_indexAt he
    have hcs := joinedCost_eq_ok hp hst hi hjn hcn hall
      (fun j hj => mem_axesOf.2 ⟨j, hj, .inl rfl⟩) (fits_choicesAt hnd hin)
    rwa [map_choicesAt hnd (by simpa using hin.length_eq), offset_indexAt he] at hcs
  · rw [indexAt_offset ha.inside]
    refine fullCost_congr hp hi fun k hk => choicesAt_map a ?_
    rwa [fullAxes_of_join hjn] at hk

/-- The stage of a join: its table is minimised over the nodes that no stage to come waits for. -/
lemma joinStage_eq_ok (hjn : p.graph.isTarget i = false) (hready : s.Ready p i) :
    ∃ t s', s.joinStage exactScale p i = .ok (t, s') ∧ Adds p s i t s' := by
  obtain ⟨hsm, inputs, hins⟩ := hp.inputsOf_join hi hjn
  have hin : p.inner i = p.meets i :: inputs := hsm.trans hins
  obtain ⟨tables, hal, hall⟩ := align_eq_ok (hst.nodup_inner i) hready.tables
  have hnd := nodup_axesOf hst s.stages i
  obtain ⟨tail, hax⟩ := exists_axesOf_eq_cons hp hi hjn s.stages
  change align p.choices s.stages (p.inner i) = .ok (tables, p.axesOf s.stages i) at hal
  change Forall₂ (fun j => AlignedTo p.choices (p.axesOf s.stages i) j (costUpTo s.stages j)) _ tables at hall
  obtain ⟨first, rest, hfst, rfl⟩ : ∃ first rest, AlignedTo p.choices (p.axesOf s.stages i)
      (p.meets i) (costUpTo s.stages (p.meets i)) first ∧ tables = first :: rest := by
    rw [hin] at hall
    obtain ⟨first, rest, hfst, -, htbs⟩ := forall₂_cons_left_iff.1 hall
    exact ⟨first, rest, hfst, htbs⟩
  have hnds : (first :: rest).map Aligned.node = p.inner i := by
    refine (forall₂_eq_eq_eq ▸ forall₂_map_right_iff.2 (hall.imp fun j t ht => ?_)).symm
    exact ht.node_eq.symm
  obtain ⟨costs, hcs, hsh⟩ := exists_joinedCosts hp hst hi hjn hready.counts hall
  have hlen : (p.axesOf s.stages i).length = tail.length + 1 := by rw [hax, length_cons]
  have haxs : first.axis = 0 := by
    rw [hfst.axis_eq, hax]
    rw [hax, nodup_cons] at hnd
    exact lastPosition_append [] hnd.1
  have hpr := hsh.permute hnd (Perm.refl _)
  rw [map_idxOf_self hnd, hlen, range_succ_eq_map, ← filter_range_succ] at hpr
  rw [hax] at hpr
  obtain ⟨states, g, waiting, hrd, hsts, hls, hwt⟩ := reduceAxes_eq_ok hpr
    (hax ▸ hnd) (fun k hk => hready.positive k (hax ▸ mem_cons_of_mem _ hk)) s.waiting
  set counted := ((first :: rest).map Aligned.node).foldl addNew s.counted with hcounted
  have hmem : ∀ j, j ∈ counted ↔ j ∈ s.counted ∨ j ∈ p.inner i := fun j => by rw [hcounted, hnds, mem_foldl_addNew]
  obtain ⟨s', haft, had⟩ := exists_adds_of_join hready hmem hjn hnd hax hwt ⟨tail.filter _, states,
      ⟨(p.axesOf s.stages i).map p.choices, costs.toArray⟩, some _, false⟩
    g rfl rfl hsh hsts (hax ▸ hls)
  refine ⟨_, s', ?_, had⟩
  have hfl : ((p.inputs.get? i).getD []).filter (!p.graph.isBoundary ·) = p.inner i := rfl
  rw [joinStage]
  rw [hfl, hal, ok_bind]
  dsimp only
  rw [hfst.shows.shape_eq, hcs, ok_bind, haxs, length_map, hlen, hax, pick_others, hrd, ok_bind]
  rw [haft]
  rfl

lemma advance_eq_ok (hready : s.Ready p i) :
    ∃ t s', s.advance exactScale p i = .ok (t, { s' with stages := s'.stages.set i t }) ∧ Adds p s i t s' := by
  rw [advance]
  cases htgt : p.graph.isTarget i with
  | false =>
    obtain ⟨t, s', hrun, had⟩ := joinStage_eq_ok hp hst hi htgt hready
    exact ⟨t, s', by rw [hrun]; rfl, had⟩
  | true =>
    obtain ⟨j, hins, hin⟩ := hp.inputsOf_target hi htgt
    obtain ⟨t, s', hrun, had⟩ : ∃ t s', s.operatorStage exactScale p i = .ok (t, s') ∧ Adds p s i t s' := by
      cases hb : p.graph.isBoundary j with
      | true =>
        rw [hb] at hin
        exact operatorStage_of_isBoundary htgt hins hb hin hready
      | false =>
        rw [hb] at hin
        exact operatorStage_of_inner hp hst hi htgt hins hin hready
    exact ⟨t, s', by rw [hrun]; rfl, had⟩

end Progress

end TensorToolchain.LayoutChoice
