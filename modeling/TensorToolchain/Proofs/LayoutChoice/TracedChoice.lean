import TensorToolchain.Proofs.LayoutChoice.BuiltStages

/-!
# Tracing the choices back through a stage

Once the choices at a node and at all that its stage needs are made, a visit makes those at the
nodes that the stage settles, so that the full cost of the stage is least. A choice that has been
made stays as it is.
-/

namespace TensorToolchain.LayoutChoice

open List Setting Keyed Function
open Tensor (Fits Shows)

variable {size c : ℕ → ℕ} {tail : List ℕ} {m : Keyed ℕ ℕ}

/-- The choice at a node, zero where none has been made. -/
def chosenAt (chosen : Keyed ℕ ℕ) (k : ℕ) : ℕ := (chosen.get? k).getD 0

variable {p : Setting ℚ} {stages : Keyed ℕ (Stage ℚ)} {i j k x : ℕ} {chosen : Keyed ℕ ℕ} {t t' : Trace} {s : Stage ℚ}

lemma chosenAt_set (chosen : Keyed ℕ ℕ) (j v : ℕ) : chosenAt (chosen.set j v) = update (chosenAt chosen) j v := by
  funext k
  rw [chosenAt, get?_set]
  by_cases hk : k = j
  · rw [if_pos hk, hk, update_self]
    rfl
  · rw [if_neg hk, update_of_ne hk]
    rfl

lemma get?_of_mem_keys (h : k ∈ chosen.keys) : chosen.get? k = some (chosenAt chosen k) := by
  obtain ⟨v, hv⟩ := exists_get? h
  rw [chosenAt, hv, Option.getD_some]

namespace Trace

lemma choice_eq_ok (h : k ∈ t.chosen.keys) : t.choice k = .ok (chosenAt t.chosen k) := by
  rw [choice, get?_of_mem_keys h, orFail_some]

/-- A node can be visited: the choices at it and at all that its stage needs are made. -/
structure CanVisit (p : Setting ℚ) (stages : Keyed ℕ (Stage ℚ)) (i : ℕ) (t : Trace) : Prop where
  own : i ∈ t.chosen.keys
  needed : ∀ x ∈ neededBy stages i, x ∈ t.chosen.keys
  visited : ∀ j ∈ t.visited, j ∈ t.chosen.keys
  fits : ∀ x ∈ t.chosen.keys, chosenAt t.chosen x < p.choices x
  tie : p.meets i ∈ t.chosen.keys → chosenAt t.chosen (p.meets i) = chosenAt t.chosen i

structure Visits (p : Setting ℚ) (stages : Keyed ℕ (Stage ℚ)) (i : ℕ) (t t' : Trace) : Prop where
  visited_eq : t'.visited = t.visited
  queue : ∃ more, t'.queue = t.queue ++ more ∧ (∀ j ∈ more, j ∈ p.inner i) ∧
    more.length ≤ (p.inputsOf i).length ∧ ∀ j ∈ p.inner i, j ∈ t.visited ∨ j ∈ more
  kept : ∀ x ∈ t.chosen.keys, t'.chosen.get? x = t.chosen.get? x
  keys : ∀ x, x ∈ t'.chosen.keys ↔ x ∈ t.chosen.keys ∨ x ∈ p.axesOf stages i
  fits : ∀ x ∈ p.axesOf stages i, chosenAt t'.chosen x < p.choices x
  tie : chosenAt t'.chosen i = chosenAt t'.chosen (p.meets i)
  least : ∀ b, Fits p.choices (p.fullAxes stages i) b →
    (∀ x ∈ p.fullAxes stages i, x ∈ t.chosen.keys ∨ x = p.meets i → b x = chosenAt t'.chosen x) →
    p.fullCost stages i (chosenAt t'.chosen) ≤ p.fullCost stages i b

/-! ### Targets -/

section

variable (hp : p.Proper) (hi : i ∈ p.keys) (htarget : p.graph.isTarget i = true) (hcan : CanVisit p stages i t)
include hp hi htarget hcan

lemma visits_of_forall_mem (hkn : ∀ x ∈ p.axesOf stages i, x ∈ t.chosen.keys) (more : List ℕ)
    (hmr : ∀ j ∈ more, j ∈ p.inner i) (hlen : more.length ≤ (p.inputsOf i).length)
    (hin : ∀ j ∈ p.inner i, j ∈ t.visited ∨ j ∈ more) : Visits p stages i t { t with queue := t.queue ++ more } := by
  refine ⟨rfl, ⟨more, rfl, hmr, hlen, hin⟩, fun _ _ => rfl, fun x => ?_,
    fun x hx => hcan.fits x (hkn x hx), by rw [meets_of_isTarget htarget], fun b _ hb => ?_⟩
  · exact ⟨.inl, (·.elim id (hkn x))⟩
  · refine (fullCost_congr hp hi fun x hx => (hb x hx (.inl ?_)).symm).le
    rcases mem_fullAxes.1 hx with ⟨-, rfl⟩ | hx
    · exact hcan.own
    · exact hkn x hx

lemma visits_of_notMem (hins : p.inputsOf i = [j]) (hin : p.inner i = [j])
    (hax : p.axesOf stages i = j :: neededBy stages i) (hnt : j ∉ t.chosen.keys) {v : ℕ} (hv : v < p.choices j)
    (hls : ∀ y < p.choices j, p.fullCost stages i (update (chosenAt t.chosen) j v) ≤
      p.fullCost stages i (update (chosenAt t.chosen) j y)) :
    Visits p stages i t { t with queue := t.queue ++ [j], chosen := t.chosen.set j v } := by
  have hne : ∀ x ∈ t.chosen.keys, x ≠ j := fun x hx e => hnt (e ▸ hx)
  refine ⟨rfl, ⟨[j], rfl, by simp [hin], by simp [hins], by simp [hin]⟩,
    fun x hx => get?_set_of_ne _ _ (hne x hx), fun x => ?_, fun x hx => ?_,
    by rw [meets_of_isTarget htarget], fun b hft hb => ?_⟩
  · rw [mem_keys_set, hax, mem_cons]
    have := hcan.needed x
    tauto
  · rw [chosenAt_set]
    by_cases hxj : x = j
    · rwa [hxj, update_self]
    · rw [update_of_ne hxj]
      rw [hax] at hx
      exact hcan.fits x (hcan.needed x ((mem_cons.1 hx).resolve_left hxj))
  · -- another choice differs at the input only
    have hfl : p.fullAxes stages i = i :: j :: neededBy stages i := by rw [fullAxes_of_isTarget htarget, hax]
    have hj : j ∈ p.fullAxes stages i := by rw [hfl]; simp
    rw [chosenAt_set] at hb ⊢
    refine (hls (b j) (hft j hj)).trans_eq (fullCost_congr hp hi fun x hx => ?_)
    by_cases hxj : x = j
    · rw [hxj, update_self]
    · have hmem : x ∈ t.chosen.keys := by
        rw [hfl] at hx
        rcases mem_cons.1 hx with rfl | hx
        · exact hcan.own
        · exact hcan.needed x ((mem_cons.1 hx).resolve_left hxj)
      rw [update_of_ne hxj, hb x hx (.inl hmem), update_of_ne hxj]

variable (hs : Staged p stages) (hget : stages.get? i = some s)
include hs hget

lemma visitSingle_of_notMem (hst : IsStage p stages i s) (hins : p.inputsOf i = [j])
    (hin : p.inner i = [j]) (hax : p.axesOf stages i = j :: s.needed) (hnt : j ∉ t.chosen.keys) :
    ∃ t', t.visitSingle exactScale p s i (chosenAt t.chosen i) = .ok t' ∧ Visits p stages i t t' := by
  have hjm : j ∈ p.inner i := by rw [hin]; exact mem_cons_self
  have hnd : ∀ x ∈ s.needed, x ∈ t.chosen.keys := neededBy_eq hget ▸ hcan.needed
  have hndp : ([i] ++ j :: s.needed).Nodup := by
    refine nodup_cons.2 ⟨fun h => (hs.lt_of_mem_axesOf hp (hax ▸ h)).false, ?_⟩
    exact nodup_cons.2 ⟨fun h => hnt (hnd j h), hst.needed_nodup⟩
  have hfl := hst.full
  rw [fullAxes_of_isTarget htarget, hax] at hfl
  obtain ⟨best, h, hbs, hsh, hls⟩ := leastIndexAlong_eq_ok hfl (hp.choices_pos (hp.mem_keys_of_mem_inner hjm)) hndp
  rw [length_singleton] at hbs
  have hft : Fits p.choices ([i] ++ s.needed) (chosenAt t.chosen) := fun x hx => by
    rcases mem_cons.1 hx with rfl | hx
    · exact hcan.fits x hcan.own
    · exact hcan.fits x (hnd x hx)
  obtain ⟨hlt, hle⟩ := hls _ hft
  refine ⟨_, ?_, visits_of_notMem hp hi htarget hcan hins hin (neededBy_eq hget ▸ hax) hnt hlt hle⟩
  have hhd : ((p.inputs.get? i).getD []).head? = some j := congrArg head? hins
  have hntv : ¬ t.visited.contains j = true := fun h => hnt (hcan.visited j (contains_iff_mem.1 h))
  have hidx : chosenAt t.chosen i :: s.needed.map (chosenAt t.chosen) = ([i] ++ s.needed).map (chosenAt t.chosen) := rfl
  have hch := mapM_eq_ok fun x hx =>
    choice_eq_ok (t := { t with queue := t.queue ++ [j] }) (hnd x hx)
  rw [visitSingle, hhd, orFail_some, ok_bind, (mem_inner.1 hjm).2, Bool.false_or,
    if_neg hntv, if_neg fun h => hnt (Keyed.contains_iff.1 h), hch, ok_bind, hbs, ok_bind]
  dsimp only
  rw [hidx, hsh.shape_eq, Tensor.contains_iff.2 hft.inside, demand_true, hsh.get_eq _ hft]
  rfl

lemma visitSingle_eq_ok :
    ∃ t', t.visitSingle exactScale p s i (chosenAt t.chosen i) = .ok t' ∧ Visits p stages i t t' := by
  obtain ⟨s', hgt', hst⟩ := hs.stage i hi
  obtain rfl := Option.some.inj (hget.symm.trans hgt')
  obtain ⟨j, hins, hin⟩ := hp.inputsOf_target hi htarget
  have hhd : ((p.inputs.get? i).getD []).head? = some j := congrArg head? hins
  have hvs := visits_of_forall_mem hp hi htarget hcan
  cases hb : p.graph.isBoundary j with
  | true =>
    rw [hb] at hin
    have hax : p.axesOf stages i = [] := by rw [axesOf, hin]; rfl
    refine ⟨t, ?_, ?_⟩
    · rw [visitSingle, hhd, orFail_some, ok_bind, hb, Bool.true_or]
      rfl
    · have := hvs (by simp [hax]) [] (by simp) (Nat.zero_le _) (by simp [hin])
      rwa [append_nil] at this
  | false =>
    rw [hb] at hin
    have hjm : j ∈ p.inner i := by rw [hin]; exact mem_cons_self
    -- the input is settled if it is not needed
    have hax : p.axesOf stages i = s.needed ∨ p.axesOf stages i = j :: s.needed := by
      refine (hst.single htarget).imp_right ?_
      rintro ⟨k, hk⟩
      have hcn := axesOf_of_inner_eq_singleton hin (hs.nodup_neededBy (hp.mem_keys_of_mem_inner hjm))
      rw [hk, cons.injEq] at hcn
      rw [hk, hcn.1]
    have hnd : ∀ x ∈ s.needed, x ∈ t.chosen.keys := neededBy_eq hget ▸ hcan.needed
    by_cases hch : j ∈ t.chosen.keys
    · have hkn : ∀ x ∈ p.axesOf stages i, x ∈ t.chosen.keys := by
        intro x hx
        rcases hax with h | h
        · exact hnd x (h ▸ hx)
        · rcases mem_cons.1 (h ▸ hx) with rfl | hx
          · exact hch
          · exact hnd x hx
      rw [visitSingle, hhd, orFail_some, ok_bind, hb, Bool.false_or]
      by_cases hvst : t.visited.contains j
      · refine ⟨t, by rw [if_pos hvst]; rfl, ?_⟩
        have := hvs hkn [] (by simp) (Nat.zero_le _) (by simp [hin, contains_iff_mem.1 hvst])
        rwa [append_nil] at this
      · rw [if_neg hvst]
        exact ⟨{ t with queue := t.queue ++ [j] }, if_pos (Keyed.contains_iff.2 hch),
          hvs hkn [j] (by simp [hin]) (by simp [hins]) (by simp [hin])⟩
    · refine visitSingle_of_notMem hp hi htarget hcan hs hget hst hins hin
        (hax.resolve_left fun h => hch (hnd j ?_)) hch
      exact h ▸ mem_axesOf.2 ⟨j, hjm, .inl rfl⟩

end

/-! ### Joins -/

lemma filter_zipIdx {l : List ℕ} (h : l.Nodup) (q : ℕ → Bool) :
    (l.zipIdx.filter (q ·.1)) = (l.filter q).map fun k => (k, l.idxOf k) := by
  have hzip : l.zipIdx = l.map fun k => (k, l.idxOf k) := by
    refine ext_getElem (by simp) fun k _ hk => ?_
    have hk : k < l.length := by simpa using hk
    rw [getElem_zipIdx, getElem_map, h.idxOf_getElem k hk, zero_add]
  rw [hzip, filter_map]
  rfl

/-- The part of a table below the choices that are known. -/
def fixKnown (part : Tensor ℚ) (known fresh : List (ℕ × ℕ)) (lead : List ℕ) : Except Fault (Tensor ℚ) :=
  if known.isEmpty then .ok part
  else part.transpose ((known ++ fresh).map Prod.snd) >>= fun turned =>
    demand ((lead.zip turned.shape).all fun e => decide (e.1 < e.2)) .badIndex >>= fun _ => .ok (turned.sub lead)

lemma fixKnown_eq_ok {part : Tensor ℚ} {names : List ℕ} {g : (ℕ → ℕ) → ℚ}
    (hpr : part.Shows size names g) (hnd : names.Nodup) (q : ℕ → Bool) {a : ℕ → ℕ}
    (ha : Fits size (names.filter q) a) : ∃ u, fixKnown part ((names.filter q).map fun k => (k, names.idxOf k))
        ((names.filter (!q ·)).map fun k => (k, names.idxOf k)) ((names.filter q).map a) = .ok u ∧
      u.Shows size (names.filter (!q ·)) fun b => g fun k => if k ∈ names.filter q then a k else b k := by
  set known := names.filter q with hkn
  set fresh := names.filter fun k => !q k with hfr
  cases hnil : known with
  | nil =>
    have hall : fresh = names := by
      refine filter_eq_self.2 fun k hk => ?_
      have := filter_eq_nil_iff.1 (hkn.symm.trans hnil) k hk
      simpa using this
    refine ⟨part, rfl, ?_⟩
    rw [hall]
    simpa using hpr
  | cons k rest =>
    rw [← hnil]
    have hpm : (known ++ fresh).Perm names := filter_append_perm q names
    have hor : ((known.map fun k => (k, names.idxOf k)) ++ fresh.map fun k => (k, names.idxOf k)).map Prod.snd =
          (known ++ fresh).map names.idxOf := by
      rw [← map_append, map_map]
      rfl
    have htr := hpr.permute hnd hpm
    refine ⟨_, ?_, htr.sub (hpm.nodup_iff.2 hnd) ha⟩
    have hbl : ((known.map a).zip ((known ++ fresh).map size)).all (fun e => decide (e.1 < e.2)) = true := by
      rw [map_append, ← append_nil (known.map a), zip_append (by simp),
        zip_nil_left, append_nil, zip_map', all_map, all_eq_true]
      exact fun k hk => decide_eq_true (ha k hk)
    rw [fixKnown, if_neg (by simp [hnil]), hor, hpr.transpose hnd hpm, ok_bind, htr.shape_eq, hbl, demand_true, ok_bind]

lemma visitJoin_eq (p : Setting ℚ) (stage : Stage ℚ) (i choice : ℕ) (t : Trace) :
    t.visitJoin exactScale p stage i choice = (orFail .badIndex (p.inputsOf i).head? >>= fun first =>
        demand (decide (choice < stage.full.shape.headD 0)) .badIndex >>= fun _ =>
        orFail .badType stage.axes >>= fun axes =>
        let chosen := t.chosen.set first choice
        let known := axes.tail.zipIdx.filter (chosen.contains ·.1)
        let fresh := axes.tail.zipIdx.filter (!chosen.contains ·.1)
        known.mapM (fun e => orFail .missingKey (chosen.get? e.1)) >>= fun lead =>
        fixKnown (stage.full.sub [choice]) known fresh lead >>= fun part =>
        orFail .badValue (exactScale.leastIndex? part.data.toList) >>= fun entry =>
        .ok { t with
          queue := t.queue ++ (p.inputsOf i).filter (!t.visited.contains ·)
          chosen := (fresh.zip (Tensor.indexAt (fresh.map fun e => stage.full.shape.getD (e.2 + 1) 0) entry)).foldl
              (fun m e => m.set e.1.1 e.2) chosen }) := by
  rw [visitJoin]
  simp only [partition_eq_filter_filter]
  refine bind_congr fun first => bind_congr fun _ => bind_congr fun axes => bind_congr fun lead => ?_
  rw [fixKnown]
  split_ifs
  · rfl
  · rw [bind_assoc]
    refine bind_congr fun turned => ?_
    rw [bind_assoc]
    rfl

lemma mapM_known (m : Keyed ℕ ℕ) (tail : List ℕ) : ((tail.filter m.contains).map fun k => (k, tail.idxOf k)).mapM
      (fun (e : ℕ × ℕ) => orFail .missingKey (m.get? e.1)) = .ok ((tail.filter m.contains).map (chosenAt m)) := by
  rw [mapM_eq_ok (g := (chosenAt m ·.1)) fun e he => ?_, map_map]
  · rfl
  · obtain ⟨k, hk, rfl⟩ := mem_map.1 he
    rw [get?_of_mem_keys (contains_iff.1 (mem_filter.1 hk).2), orFail_some]

/-- The nodes of the axes of a join that have not been chosen are chosen for the least full cost. -/
lemma visits_of_least (hp : p.Proper) (hi : i ∈ p.keys)
    (hjn : p.graph.isTarget i = false) (hcan : CanVisit p stages i t)
    (hax : p.axesOf stages i = p.meets i :: tail) (hnt : p.meets i ∉ tail)
    (hm : t.chosen.set (p.meets i) (chosenAt t.chosen i) = m) (hft : ∀ x ∈ m.keys, chosenAt m x < p.choices x)
    (hch : ∀ x, chosen.get? x = if x ∈ tail ∧ x ∉ m.keys then some (c x) else m.get? x)
    (hc : ∀ x ∈ tail, x ∉ m.keys → c x < p.choices x)
    (hls : ∀ b, Fits p.choices (p.axesOf stages i) b → (∀ x ∈ p.axesOf stages i, x ∈ m.keys → b x = chosenAt chosen x) →
      p.fullCost stages i (chosenAt chosen) ≤ p.fullCost stages i b) : Visits p stages i t { t with
      queue := t.queue ++ (p.inputsOf i).filter (!t.visited.contains ·), chosen } := by
  obtain ⟨hsm, -, -⟩ := hp.inputsOf_join hi hjn
  have hmem : ∀ x, x ∈ m.keys ↔ x = p.meets i ∨ x ∈ t.chosen.keys := fun x => hm ▸ mem_keys_set
  have hkp : ∀ x ∈ t.chosen.keys, chosen.get? x = t.chosen.get? x := by
    intro x hx
    rw [hch, if_neg (·.2 ((hmem x).2 (.inr hx))), ← hm, get?_set]
    split_ifs with hmt
    · subst hmt
      rw [get?_of_mem_keys hx, hcan.tie hx]
    · rfl
  have hmt : chosen.get? (p.meets i) = some (chosenAt t.chosen i) := by
    rw [hch, if_neg (hnt ·.1), ← hm, get?_set, if_pos rfl]
  refine ⟨rfl, ⟨_, rfl, fun j hj => ?_, length_filter_le _ _, fun j hj => ?_⟩, hkp, fun x => ?_, fun x hx => ?_, ?_, ?_⟩
  · rw [hsm]
    exact mem_of_mem_filter hj
  · rw [hsm] at hj
    by_cases hv : j ∈ t.visited
    · exact .inl hv
    · exact .inr (mem_filter.2 ⟨hj, by simpa using hv⟩)
  · have := hmem x
    rw [Keyed.mem_keys, hch, hax, mem_cons]
    split_ifs with hfr
    · simp [hfr.1]
    · rw [← Keyed.mem_keys]
      tauto
  · rw [chosenAt, hch]
    split_ifs with hfr
    · exact hc x hfr.1 hfr.2
    · have := hmem x
      rw [hax, mem_cons] at hx
      exact hft x (by tauto)
  · rw [chosenAt, hkp i hcan.own, chosenAt, hmt]
    rfl
  · rw [fullAxes_of_join hjn]
    exact fun b hb hag => hls b hb fun x hx hmx => hag x hx ((hmem x).1 hmx).symm

/-- The fresh nodes of a join take the least entry of the part of its table below the known choices,
of which that at the first input is given. -/
lemma exists_visitJoin_eq_ok {first choice : ℕ} {f : (ℕ → ℕ) → ℚ} (hins : (p.inputsOf i).head? = some first)
    (hax : s.axes = some (first :: tail)) (hfl : s.full.Shows size ([first] ++ tail) f) (hnd : (first :: tail).Nodup)
    (hpos : ∀ x ∈ tail, 0 < size x) (hm : t.chosen.set first choice = m) (hft : ∀ x ∈ m.keys, chosenAt m x < size x) :
    ∃ (c : ℕ → ℕ) (chosen : Keyed ℕ ℕ), t.visitJoin exactScale p s i choice = .ok { t with
        queue := t.queue ++ (p.inputsOf i).filter (!t.visited.contains ·), chosen } ∧
      (∀ x, chosen.get? x = if x ∈ tail ∧ x ∉ m.keys then some (c x) else m.get? x) ∧
      (∀ x ∈ tail, x ∉ m.keys → c x < size x) ∧ ∀ b, Fits size (first :: tail) b →
        (∀ x ∈ first :: tail, x ∈ m.keys → b x = chosenAt chosen x) → f (chosenAt chosen) ≤ f b := by
  obtain ⟨-, htl⟩ := nodup_cons.1 hnd
  have hfst : first ∈ m.keys := hm ▸ mem_keys_set.2 (.inl rfl)
  have hch : chosenAt m first = choice := by rw [← hm, chosenAt_set, update_self]
  have hpr := hfl.sub hnd fun x hx => by
    rw [mem_singleton.1 hx]
    exact hft first hfst
  obtain ⟨u, hu, hshw⟩ := fixKnown_eq_ok hpr htl m.contains fun x hx =>
    hft x (contains_iff.1 (mem_filter.1 hx).2)
  set known := tail.filter m.contains with hkn
  set fresh := tail.filter fun k => !m.contains k with hfrs
  have hmk : ∀ x ∈ first :: tail, (x ∈ m.keys ↔ x ∈ [first] ∨ x ∈ known) := fun x hx => by
    rw [mem_singleton, mem_filter, Keyed.contains_iff]
    constructor
    · exact fun h => (mem_cons.1 hx).imp_right fun hx => ⟨hx, h⟩
    · rintro (rfl | h)
      · exact hfst
      · exact h.2
  have hmf : ∀ x, x ∈ fresh ↔ x ∈ tail ∧ x ∉ m.keys := fun x => by
    rw [mem_filter, Bool.not_eq_true', ← Bool.not_eq_true, Keyed.contains_iff]
  obtain ⟨e, c, he, hidx, hc, hls⟩ := leastIndex?_data hshw (htl.filter _) fun x hx => hpos x (mem_of_mem_filter hx)
  have hsh : s.full.shape = (first :: tail).map size := hfl.shape_eq
  have hhd : s.full.shape.headD 0 = size first := by
    rw [hsh]
    rfl
  have hsz : (fresh.map fun k => (k, tail.idxOf k)).map (fun e => s.full.shape.getD (e.2 + 1) 0) = fresh.map size := by
    rw [map_map]
    refine map_congr_left fun k hk => ?_
    rw [comp_apply, hsh, map_cons]
    exact Tensor.choicesAt_map size (mem_of_mem_filter hk)
  have hset : ((fresh.map fun k => (k, tail.idxOf k)).zip (fresh.map c)).foldl
      (fun m e => m.set e.1.1 e.2) m = fresh.foldl (fun m k => m.set k (c k)) m := by
    rw [zip_map', foldl_map]
  have hget : ∀ x, (fresh.foldl (fun m k => m.set k (c k)) m).get? x =
      if x ∈ tail ∧ x ∉ m.keys then some (c x) else m.get? x := fun x => by
    rw [get?_foldl_set]
    exact if_congr (hmf x) rfl rfl
  refine ⟨c, _, ?_, hget, fun x hx hnot => hc x ((hmf x).2 ⟨hx, hnot⟩), fun b hb hag => ?_⟩
  · rw [map_singleton, hch] at hu
    rw [visitJoin_eq, hins, orFail_some, ok_bind, hhd,
      decide_eq_true (hch ▸ hft first hfst), demand_true, ok_bind, hax, orFail_some, ok_bind]
    dsimp only
    rw [tail_cons, hm, filter_zipIdx htl m.contains, filter_zipIdx htl (!m.contains ·),
      mapM_known, ok_bind, hu, ok_bind, he, orFail_some, ok_bind, hsz, hidx, hset]
  · -- a choice that agrees on the known axes differs from the one taken on the fresh ones only
    have hlv : ∀ a d : ℕ → ℕ, Fits size fresh d →
        (∀ x ∈ first :: tail, a x = if x ∈ m.keys then chosenAt m x else d x) →
        f a = f fun k => if k ∈ [first] then chosenAt m k else if k ∈ known then chosenAt m k else d k := by
      intro a d hd ha
      refine hfl.eq_of_agree (fun x hx => ?_) fun x hx => ?_
      · rw [ha x hx]
        split_ifs with hmem
        · exact hft x hmem
        · refine hd x ((hmf x).2 ⟨(mem_cons.1 hx).resolve_left fun e => hmem (e ▸ hfst), hmem⟩)
      · rw [ha x hx, ← ite_or]
        exact if_congr (hmk x hx) rfl rfl
    have hfr : Fits size fresh b := hb.mono fun x hx => mem_cons_of_mem first (mem_of_mem_filter hx)
    have htk : ∀ x ∈ first :: tail, chosenAt (fresh.foldl (fun m k => m.set k (c k)) m) x =
        if x ∈ m.keys then chosenAt m x else c x := fun x hx => by
      rw [chosenAt, hget]
      by_cases hmem : x ∈ m.keys
      · rw [if_neg (·.2 hmem), if_pos hmem, chosenAt]
      · have hx := (mem_cons.1 hx).resolve_left fun e => hmem (e ▸ hfst)
        rw [if_pos ⟨hx, hmem⟩, if_neg hmem, Option.getD_some]
    rw [hlv _ c hc htk, hlv b b hfr fun x hx => ?_]
    · exact hls b hfr
    · split_ifs with hmem
      · rw [hag x hx hmem, htk x hx, if_pos hmem]
      · rfl

lemma visitJoin_eq_ok (hs : Staged p stages) (hp : p.Proper) (hst : p.Stageable) (hi : i ∈ p.keys)
    (hjn : p.graph.isTarget i = false) (hcan : CanVisit p stages i t) (hget : stages.get? i = some s) :
    ∃ t', t.visitJoin exactScale p s i (chosenAt t.chosen i) = .ok t' ∧ Visits p stages i t t' := by
  obtain ⟨s', hgt', hstg⟩ := hs.stage i hi
  obtain rfl := Option.some.inj (hget.symm.trans hgt')
  obtain ⟨-, inputs, hins⟩ := hp.inputsOf_join hi hjn
  obtain ⟨tail, hax⟩ := exists_axesOf_eq_cons hp hi hjn stages
  have hnd : (p.meets i :: tail).Nodup := hax ▸ nodup_axesOf hst stages i
  have hfl : s.full.Shows p.choices ([p.meets i] ++ tail) (p.fullCost stages i) := by
    have := hstg.full
    rwa [fullAxes_of_join hjn, hax] at this
  have hpos : ∀ x ∈ tail, 0 < p.choices x := fun x hx => hp.choices_pos
    (hs.mem_keys_of_mem_axesOf hp (hax ▸ mem_cons_of_mem _ hx))
  -- the first input has the choice of the join
  have hft : ∀ x ∈ (t.chosen.set (p.meets i) (chosenAt t.chosen i)).keys,
      chosenAt (t.chosen.set (p.meets i) (chosenAt t.chosen i)) x < p.choices x := fun x hx => by
    rw [chosenAt_set]
    by_cases hx' : x = p.meets i
    · rw [hx', update_self, hp.choices_meets i hi]
      exact hcan.fits i hcan.own
    · rw [update_of_ne hx']
      exact hcan.fits x ((mem_keys_set.1 hx).resolve_left hx')
  obtain ⟨c, chosen, hrun, hch, hc, hls⟩ := exists_visitJoin_eq_ok (by rw [hins]; rfl)
    (hax ▸ hstg.axes hjn) hfl hnd hpos rfl hft
  exact ⟨_, hrun, visits_of_least hp hi hjn hcan hax (nodup_cons.1 hnd).1 rfl hft hch hc (hax ▸ hls)⟩

/-! ### Tracing the choices back through all stages

The stages are visited from the outputs on. A node that a stage settles is chosen when this stage
is first visited, since no other stage settles it and no output holds it. So every stage that was
visited has its least full cost, whatever is chosen later.
-/

variable {start : Keyed ℕ ℕ} {queue : List ℕ}

/-- What holds while the stages are visited. What is chosen is held by an output, or settled by a
stage that was visited, and the full costs of these stages are least. -/
structure Traced (p : Setting ℚ) (stages : Keyed ℕ (Stage ℚ)) (start : Keyed ℕ ℕ) (t : Trace) : Prop where
  mem_keys : ∀ i, i ∈ t.visited ∨ i ∈ t.queue → i ∈ p.keys
  held : ∀ i, i ∈ t.visited ∨ i ∈ t.queue → ∀ x, Holds stages i x → x ∈ t.chosen.keys
  origin : ∀ x ∈ t.chosen.keys, (∃ o ∈ p.outputs, Holds stages o x) ∨ ∃ i ∈ t.visited, Settles p stages i x
  axes : ∀ i ∈ t.visited, ∀ x ∈ p.axesOf stages i, x ∈ t.chosen.keys
  tie : ∀ i ∈ t.visited, chosenAt t.chosen i = chosenAt t.chosen (p.meets i)
  least : ∀ i ∈ t.visited, costUpTo stages i (chosenAt t.chosen) = p.fullCost stages i (chosenAt t.chosen)
  inner : ∀ i ∈ t.visited, ∀ j ∈ p.inner i, j ∈ t.visited ∨ j ∈ t.queue
  outputs : ∀ o ∈ p.outputs, o ∈ t.visited ∨ o ∈ t.queue
  fits : ∀ x ∈ t.chosen.keys, chosenAt t.chosen x < p.choices x
  start_eq : ∀ o ∈ p.outputs, ∀ x, Holds stages o x → t.chosen.get? x = start.get? x

/-! ### One visit -/

lemma Traced.mem_of_mem_fullAxes (ht : Traced p stages start t) (hi : i ∈ t.visited) (hx : x ∈ p.fullAxes stages i) :
    x ∈ t.chosen.keys := by
  rcases mem_fullAxes.1 hx with ⟨-, rfl⟩ | hx
  · exact ht.held x (.inl hi) x (.inl rfl)
  · exact ht.axes i hi x hx

lemma Traced.meets_mem (ht : Traced p stages start t) (hp : p.Proper) (hi : i ∈ t.visited) : p.meets i ∈ t.chosen.keys :=
  ht.mem_of_mem_fullAxes hi (Staged.meets_mem_fullAxes hp (ht.mem_keys i (.inl hi)) stages)

section

variable (ht : Traced p stages start t) (hs : Staged p stages) (hp : p.Proper) (hst : p.Stageable)
include hs hp

lemma settles_meets (hi : i ∈ p.keys) (hjn : p.graph.isTarget i = false) : Settles p stages i (p.meets i) := by
  obtain ⟨tail, hax⟩ := exists_axesOf_eq_cons hp hi hjn stages
  obtain ⟨s, hget, hst⟩ := hs.stage i hi
  refine ⟨hax ▸ mem_cons_self, ?_⟩
  rw [neededBy_eq hget]
  exact hst.meets_notMem

/-- A visit for the first time leaves the full cost least. -/
lemma Visits.costUpTo_eq (hv : Visits p stages i t t') (hi : i ∈ p.keys) (hown : i ∈ t.chosen.keys)
    (hft : ∀ x ∈ t'.chosen.keys, chosenAt t'.chosen x < p.choices x)
    (hfr : ∀ x, Settles p stages i x → x ∉ t.chosen.keys) :
    costUpTo stages i (chosenAt t'.chosen) = p.fullCost stages i (chosenAt t'.chosen) := by
  obtain ⟨g, hls, hg⟩ := hs.exists_leastOver hi
  have hmem : ∀ x ∈ p.fullAxes stages i, x ∈ t'.chosen.keys := fun x hx => by
    rw [hv.keys]
    rcases mem_fullAxes.1 hx with ⟨-, rfl⟩ | hx
    · exact .inl hown
    · exact .inr hx
  have hall : Fits p.choices (p.fullAxes stages i) (chosenAt t'.chosen) := fun x hx => hft x (hmem x hx)
  have hsub : ∀ x ∈ p.meets i :: neededBy stages i, x ∈ p.fullAxes stages i := fun x hx => by
    rcases mem_cons.1 hx with rfl | hx
    · exact Staged.meets_mem_fullAxes hp hi stages
    · exact hs.needed_mem_fullAxes hi hx
  rw [hg _ (hall.mono hsub) hv.tie]
  refine le_antisymm (hls.le _ hall) ?_
  obtain ⟨b, hb, hag, hfb⟩ := hls.attained _ (hall.mono hsub)
  rw [← hfb]
  refine hv.least b hb fun x hx hkn => hag x ?_
  -- what was known is needed, or it is the node whose layout the stage has
  by_cases hmt : x = p.meets i
  · exact hmt ▸ mem_cons_self
  refine mem_cons_of_mem _ ?_
  by_contra hnot
  refine hfr x ⟨(mem_fullAxes.1 hx).resolve_left ?_, hnot⟩ (hkn.resolve_right hmt)
  rintro ⟨htarget, rfl⟩
  exact hmt (meets_of_isTarget htarget).symm

include ht hst

lemma Traced.notMem_of_settles (hi : i ∈ p.keys) (hnew : i ∉ t.visited) (hx : Settles p stages i x) :
    x ∉ t.chosen.keys := by
  intro hmem
  rcases ht.origin x hmem with ⟨o, ho, hox⟩ | ⟨j, hj, hjx⟩
  · obtain ⟨hok, hout⟩ := (mem_outputs hp hst).1 ho
    exact hs.outputs i hi x hx o hok hout hox
  · exact hnew (hs.once j (ht.mem_keys j (.inl hj)) i hi x hjx hx ▸ hj)

lemma Traced.canVisit (hqu : t.queue = i :: queue) :
    CanVisit p stages i { t with queue, visited := addNew t.visited i } := by
  have hmem : i ∈ t.queue := by rw [hqu]; exact mem_cons_self
  have hi := ht.mem_keys i (.inr hmem)
  have hhl := ht.held i (.inr hmem)
  refine ⟨hhl i (.inl rfl), fun x hx => hhl x (.inr hx), fun j hj => ?_, ht.fits, fun hmt => ?_⟩
  · rcases mem_addNew.1 hj with hj | rfl
    · exact ht.held j (.inl hj) j (.inl rfl)
    · exact hhl j (.inl rfl)
  · by_cases hvs : i ∈ t.visited
    · exact (ht.tie i hvs).symm
    · cases htarget : p.graph.isTarget i with
      | true => rw [meets_of_isTarget htarget]
      | false =>
        have hstl := settles_meets hs hp hi htarget
        exact absurd hmt (ht.notMem_of_settles hs hp hst hi hvs hstl)

lemma Traced.visit (hqu : t.queue = i :: queue)
    (hv : Visits p stages i { t with queue, visited := addNew t.visited i } t') : Traced p stages start t' := by
  have him : i ∈ t.queue := by rw [hqu]; exact mem_cons_self
  have hi := ht.mem_keys i (.inr him)
  have hcan := ht.canVisit hs hp hst hqu
  obtain ⟨more, hmr, hmrn, -, hmrl⟩ := hv.queue
  have hvs : ∀ k, k ∈ t'.visited ↔ k ∈ t.visited ∨ k = i := fun k => by
    rw [hv.visited_eq]
    exact mem_addNew
  have hold : ∀ k, k ∈ t.visited ∨ k ∈ t.queue → k ∈ t'.visited ∨ k ∈ t'.queue := by
    intro k hk
    rw [hvs, hmr, mem_append]
    rw [hqu, mem_cons] at hk
    tauto
  have hnew : ∀ k, k ∈ t'.visited ∨ k ∈ t'.queue → (k ∈ t.visited ∨ k ∈ t.queue) ∨ k ∈ p.inner i := by
    intro k hk
    rw [hvs, hmr, mem_append] at hk
    rw [hqu, mem_cons]
    tauto
  have hks : ∀ x ∈ t.chosen.keys, x ∈ t'.chosen.keys := fun x hx => (hv.keys x).2 (.inl hx)
  have hat : ∀ x ∈ t.chosen.keys, chosenAt t'.chosen x = chosenAt t.chosen x := fun x hx => by
    rw [chosenAt, hv.kept x hx, chosenAt]
  have hft : ∀ x ∈ t'.chosen.keys, chosenAt t'.chosen x < p.choices x := fun x hx => by
    rcases (hv.keys x).1 hx with hx | hx
    · rw [hat x hx]
      exact ht.fits x hx
    · exact hv.fits x hx
  refine ⟨fun k hk => ?_, fun k hk x hx => ?_, fun x hx => ?_, fun k hk x hx => ?_, fun k hk => ?_,
    fun k hk => ?_, fun k hk j hj => ?_, fun o ho => hold o (ht.outputs o ho), hft, fun o ho x hx => ?_⟩
  · exact (hnew k hk).elim (ht.mem_keys k) hp.mem_keys_of_mem_inner
  · rcases hnew k hk with hk | hk
    · exact hks x (ht.held k hk x hx)
    · exact (hv.keys x).2 (.inr (mem_axesOf.2 ⟨k, hk, hx⟩))
  · by_cases hx' : x ∈ t.chosen.keys
    · refine (ht.origin x hx').imp_right ?_
      rintro ⟨k, hk, hkx⟩
      exact ⟨k, (hvs k).2 (.inl hk), hkx⟩
    · refine .inr ⟨i, (hvs i).2 (.inr rfl), ((hv.keys x).1 hx).resolve_left hx', ?_⟩
      exact fun hnd => hx' (hcan.needed x hnd)
  · rcases (hvs k).1 hk with hk | rfl
    · exact hks x (ht.axes k hk x hx)
    · exact (hv.keys x).2 (.inr hx)
  · rcases (hvs k).1 hk with hk | rfl
    · rw [hat k (ht.held k (.inl hk) k (.inl rfl)), hat _ (ht.meets_mem hp hk), ht.tie k hk]
    · exact hv.tie
  · by_cases hk' : k ∈ t.visited
    · have hown : ∀ x, Holds stages k x → chosenAt t'.chosen x = chosenAt t.chosen x := fun x hx =>
        hat x (ht.held k (.inl hk') x hx)
      rw [costUpTo_congr fun x hx => hown x (mem_cons.1 hx), ht.least k hk']
      exact fullCost_congr hp (ht.mem_keys k (.inl hk')) fun x hx => (hat x (ht.mem_of_mem_fullAxes hk' hx)).symm
    · obtain rfl := ((hvs k).1 hk).resolve_left hk'
      exact hv.costUpTo_eq hs hp hi hcan.own hft fun x hx => ht.notMem_of_settles hs hp hst hi hk' hx
  · rcases (hvs k).1 hk with hk | rfl
    · exact hold j (ht.inner k hk j hj)
    · rw [hvs, hmr, mem_append]
      have := hmrl j hj
      rw [mem_addNew] at this
      tauto
  · rw [hv.kept x (ht.held o (ht.outputs o ho) x hx), ht.start_eq o ho x hx]

lemma Traced.exists_visits (hqu : t.queue = i :: queue) (hget : stages.get? i = some s) :
    ∃ t', (if p.graph.joins i then visitJoin exactScale p s i (chosenAt t.chosen i)
          { t with queue, visited := addNew t.visited i }
        else visitSingle exactScale p s i (chosenAt t.chosen i)
          { t with queue, visited := addNew t.visited i }) = .ok t' ∧
      Visits p stages i { t with queue, visited := addNew t.visited i } t' := by
  have hi : i ∈ p.keys := ht.mem_keys i (.inr (by rw [hqu]; exact mem_cons_self))
  have hcan := ht.canVisit hs hp hst hqu
  cases htarget : p.graph.isTarget i with
  | true =>
    have hvs := visitSingle_eq_ok hp hi htarget hcan hs hget
    rw [hst.not_joins i hi htarget]
    exact hvs
  | false =>
    have hvs := visitJoin_eq_ok hs hp hst hi htarget hcan hget
    rw [(hp.join_inputs i hi htarget).1]
    exact hvs

end

/-! ### All visits -/

/-- A bound for the number of visits that a node of the queue leads to. -/
def visitsFrom (p : Setting ℚ) (i : ℕ) : ℕ := ((p.keys.filter (· ≤ i)).map fun k => (p.inputsOf k).length + 1).prod

/-- A bound for the number of visits that a queue leads to. -/
def visitsLeft (p : Setting ℚ) (queue : List ℕ) : ℕ := (queue.map (visitsFrom p)).sum

lemma prod_pos (p : Setting ℚ) (l : List ℕ) : 0 < (l.map fun k => (p.inputsOf k).length + 1).prod :=
  List.prod_pos_iff_forall_pos_nat.2 fun n hn => by
    obtain ⟨k, -, rfl⟩ := mem_map.1 hn
    exact Nat.succ_pos _

lemma visitsLeft_le {n : ℕ} (h : ∀ j ∈ queue, visitsFrom p j ≤ n) : visitsLeft p queue ≤ queue.length * n := by
  have hsum := sum_le_card_nsmul _ n fun m hm => by
    obtain ⟨j, hj, rfl⟩ := mem_map.1 hm
    exact h j hj
  rwa [length_map] at hsum

lemma visitsLeft_inputs_lt (hp : p.Proper) (hi : i ∈ p.keys) {more : List ℕ} (hmr : ∀ j ∈ more, j ∈ p.inner i)
    (hlen : more.length ≤ (p.inputsOf i).length) : visitsLeft p more < visitsFrom p i := by
  set below := ((p.keys.filter (· < i)).map fun k => (p.inputsOf k).length + 1).prod
  have hpos : 0 < below := prod_pos p _
  have hfr : visitsFrom p i = ((p.inputsOf i).length + 1) * below := by
    have hpm : (p.keys.filter (· ≤ i)).Perm (i :: p.keys.filter (· < i)) := by
      refine (perm_ext_iff_of_nodup (hp.keys_nodup.filter _) (nodup_cons.2
        ⟨by simp, hp.keys_nodup.filter _⟩)).2 fun k => ?_
      simp only [mem_filter, mem_cons, decide_eq_true_iff, le_iff_lt_or_eq]
      constructor
      · rintro ⟨hk, hlt | rfl⟩
        · exact .inr ⟨hk, hlt⟩
        · exact .inl rfl
      · rintro (rfl | ⟨hk, hlt⟩)
        · exact ⟨hi, .inr rfl⟩
        · exact ⟨hk, .inl hlt⟩
    rw [visitsFrom, (hpm.map _).prod_eq, map_cons, prod_cons]
  have hle : ∀ j ∈ more, visitsFrom p j ≤ below := fun j hj => by
    have hlt := hp.lt_of_mem_inner (hmr j hj)
    refine Nat.le_of_dvd hpos (Sublist.prod_dvd_prod (Sublist.map _ ?_))
    refine monotone_filter_right _ fun k hk => ?_
    rw [decide_eq_true_iff] at hk ⊢
    exact hk.trans_lt hlt
  calc visitsLeft p more
    _ ≤ more.length * below := visitsLeft_le hle
    _ ≤ (p.inputsOf i).length * below := Nat.mul_le_mul_right _ hlen
    _ < ((p.inputsOf i).length + 1) * below := mul_lt_mul_of_pos_right (Nat.lt_succ_self _) hpos
    _ = visitsFrom p i := hfr.symm

lemma visitsLeft_lt_visitBound (hp : p.Proper) (queue : List ℕ) : visitsLeft p queue < visitBound p queue.length := by
  have hvs : p.inputs.values = p.keys.map p.inputsOf := by
    rw [Setting.keys, Keyed.keys, map_map]
    refine map_congr_left fun e he => ?_
    rw [comp_apply, inputsOf, get?_of_mem hp.keys_nodup he, Option.getD_some]
  rw [visitBound, ← prod_eq_foldl, hvs, map_map, Nat.lt_succ_iff]
  refine visitsLeft_le fun j _ => Nat.le_of_dvd (prod_pos p p.keys) ?_
  exact Sublist.prod_dvd_prod (Sublist.map _ filter_sublist)

lemma run_eq_ok (hs : Staged p stages) (hp : p.Proper) (hst : p.Stageable) (fuel : ℕ)
    (ht : Traced p stages start t) (hfl : visitsLeft p t.queue < fuel) :
    ∃ t', Trace.run exactScale p stages fuel t = .ok t' ∧ Traced p stages start t' ∧ t'.queue = [] := by
  induction fuel generalizing t with
  | zero => exact absurd hfl (Nat.not_lt_zero _)
  | succ fuel ih =>
    cases hqu : t.queue with
    | nil => exact ⟨t, by rw [run, hqu]; rfl, ht, hqu⟩
    | cons i queue =>
      have him : i ∈ t.queue := by rw [hqu]; exact mem_cons_self
      have hi := ht.mem_keys i (.inr him)
      obtain ⟨s, hget, -⟩ := hs.stage i hi
      obtain ⟨t', hvs, hv⟩ := ht.exists_visits hs hp hst hqu hget
      obtain ⟨more, hmr, hin, hlen, -⟩ := hv.queue
      obtain ⟨t'', hrun, ht'', hend⟩ := ih (ht.visit hs hp hst hqu hv) (by
        have hlt := visitsLeft_inputs_lt hp hi hin hlen
        rw [hqu, visitsLeft, map_cons, sum_cons] at hfl
        rw [hmr, visitsLeft, map_append, sum_append]
        rw [visitsLeft] at hlt
        dsimp only
        omega)
      refine ⟨t'', ?_, ht'', hend⟩
      have hch := choice_eq_ok (t := { t with queue, visited := addNew t.visited i })
        (ht.held i (.inr him) i (.inl rfl))
      rw [run, hqu]
      dsimp only
      rw [hp.not_boundary i hi, if_neg Bool.false_ne_true, hch, ok_bind, hget, orFail_some, ok_bind]
      split_ifs at hvs ⊢
      · rw [hvs, ok_bind, hrun]
      · rw [hvs, ok_bind, hrun]

end Trace

end TensorToolchain.LayoutChoice
