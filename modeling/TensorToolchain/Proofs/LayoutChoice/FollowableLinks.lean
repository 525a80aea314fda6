import TensorToolchain.Proofs.LayoutChoice.AnchorGraph
import TensorToolchain.Proofs.LayoutChoice.PrunedLinks

/-!
# Links that can be followed

After pruning, anchors without inputs are dropped, and each of them is taken out of the inputs of
all anchors that listed it before. This goes well if none of those has been pruned, and it leaves
links in which every input that is no boundary node has links itself.
-/

namespace TensorToolchain.LayoutChoice

open List Links Keyed Nat

variable {inputs : List ℕ}

namespace Links

variable {links rest : Links} {i j k : ℕ} {outs : List ℕ}

lemma times_of_get? (h : links.get? i = some inputs) (k : ℕ) : links.times i k = inputs.count k := by
  rw [times, h, Option.getD_some]

lemma times_pos : 0 < links.times i k ↔ ∃ inputs, links.get? i = some inputs ∧ k ∈ inputs := by
  cases h : links.get? i with
  | none => simp [times, h]
  | some inputs => simp [times_of_get? h]

lemma mem_keys_of_times_pos (h : 0 < links.times i k) : i ∈ links.keys := by
  obtain ⟨inputs, hins, -⟩ := times_pos.1 h
  exact mem_keys_of_get? hins

@[simp] lemma times_erase (links : Links) (i j k : ℕ) :
    times (links.erase i) j k = if j = i then 0 else links.times j k := by
  rw [times, get?_erase]
  split_ifs with h
  · rfl
  · rfl

lemma times_reversed (hks : links.keys.Nodup) (i k : ℕ) : times (reversed links) i k = links.times k i := by
  have hcnt : times (reversed links) i k = links.pairs.count (k, i) := by
    rw [times, getD_reversed_eq_pairs, List.count, countP_map, countP_filter]
    exact countP_congr fun pair _ => by simp [Prod.ext_iff]
  rw [hcnt, pairs, times, get?]
  change (links.entries.map Prod.fst).Nodup at hks
  generalize links.entries = entries at hks
  induction entries with
  | nil => rfl
  | cons e entries ih =>
    rw [map_cons, nodup_cons] at hks
    rw [flatMap_cons, count_append, ih hks.2]
    by_cases hk : e.1 = k
    · have hno : entries.find? (·.1 = k) = none :=
        find?_eq_none.2 fun p hp hkey => hks.1 (hk ▸ mem_map.2 ⟨p, hp, of_decide_eq_true hkey⟩)
      simp [hk, hno, count_map_of_injective e.2 _ (Prod.mk_right_injective k)]
    · have hnot : (e.2.map (e.1, ·)).count (k, i) = 0 := count_eq_zero.2 (by simp [hk])
      simp [hk, hnot]

/-- A node can be taken out of the inputs of others that list it as often as they are named. -/
lemma exists_unlink_eq_ok (h : ∀ j, outs.count j ≤ links.times j i) :
    ∃ rest, unlink links i outs = .ok rest ∧ Unlinked links i outs rest := by
  refine foldlM_eq_ok _ (unlinked_nil links i) ?_
  intro seen j later before hot hbef
  have hpos : 0 < before.times j i := by
    have hj := h j
    rw [hot, count_append, count_cons_self] at hj
    rw [hbef.times, if_pos rfl]
    omega
  obtain ⟨inputs, hins, hi⟩ := times_pos.1 hpos
  refine ⟨before.set j (inputs.erase i), ?_, hbef.concat hins hi⟩
  rw [hins, orFail_some, ok_bind, contains_iff_mem.2 hi]
  rfl

end Links

namespace Graph

variable {g : Graph} {links rest : Links} {i j k : ℕ}

/-! ### Dropping nodes without inputs -/

/-- The nodes that lead to a node before pruning. -/
abbrev leads (g : Graph) (i : ℕ) : List ℕ := ((reversed g.anchorLinks).get? i).getD []

/-- What each drop that goes well preserves, dropping nodes without inputs preserves. -/
lemma dropEmpty_induction {P : Links → Prop} {outs : Links}
    (hst : ∀ start now next : Links, ∀ i ∈ start.keys, P start → P now → (∀ k, now.times i k = 0) →
      unlink (now.erase i) i ((outs.get? i).getD []) = .ok next → P next) :
    ∀ (fuel : ℕ) (links : Links), links.keys.Nodup → P links → dropEmpty outs fuel links = .ok rest → P rest := by
  intro fuel
  induction fuel with
  | zero =>
    intro links _ hP h
    rwa [← Except.ok.inj h]
  | succ fuel ih =>
    intro links hnd hP h
    rw [dropEmpty] at h
    split_ifs at h with hno
    · rwa [← Except.ok.inj h]
    · obtain ⟨next, hnx, h⟩ := bind_eq_ok.1 h
      suffices hall : P next ∧ next.keys.Nodup ∧ ∀ j k, next.times j k ≤ links.times j k from ih next hall.2.1 hall.1 h
      refine of_foldlM_eq_ok (fun _ now => P now ∧ now.keys.Nodup ∧
        ∀ j k, now.times j k ≤ links.times j k) hnx ⟨hP, hnd, fun _ _ => le_rfl⟩ ?_
      rintro seen i later now after hls ⟨hnow, hnd', hle⟩ haft
      have hun := unlinked_of_eq_ok haft
      obtain ⟨e, he, rfl⟩ := mem_map.1 (hls ▸ mem_append_right seen mem_cons_self)
      obtain ⟨he, hnil⟩ := mem_filter.1 he
      have hz : ∀ k, links.times e.1 k = 0 := fun k => by
        rw [times_of_get? (get?_of_mem hnd he), isEmpty_iff.1 hnil]
        rfl
      refine ⟨hst links now after e.1 (mem_map_of_mem he) hP hnow
        (fun k => le_zero.1 (hz k ▸ hle e.1 k)) haft, ?_, fun j k => ?_⟩
      · rw [hun.keys]
        exact nodup_keys_erase _ hnd'
      · refine le_trans ?_ (hle j k)
        rw [hun.times, times_erase]
        split_ifs <;> omega

lemma nearestOf_of_isBoundary (h : g.isBoundary i) : g.nearestOf i = [i] := by
  rw [nearestOf, ancestors, nearest, h]
  rfl

section

variable (hregular : g.Regular)
include hregular

lemma count_leads (i k : ℕ) : (g.leads i).count k = g.anchorLinks.times k i :=
  times_reversed (nodup_keys_anchorLinks hregular) i k

lemma times_anchorLinks_pos : 0 < g.anchorLinks.times i k ↔ i ∈ g.anchorLinks.keys ∧ k ∈ g.nearestOf i := by
  rw [times_pos, mem_keys_anchorLinks hregular, get?_anchorLinks hregular]
  split_ifs with h
  · simp [h]
  · simp [h]

/-- Links in which every input can be followed, and from which only nodes are missing that list none
of those left. -/
structure Closed (g : Graph) (links : Links) : Prop where
  keys_nodup : links.keys.Nodup
  anchors : ∀ i ∈ links.keys, i ∈ g.anchorLinks.keys
  listed : ∀ i k, 0 < links.times i k → g.isBoundary k = true ∨ k ∈ links.keys
  times_eq : ∀ i ∈ links.keys, ∀ k ∈ links.keys, links.times i k = g.anchorLinks.times i k
  left_out : ∀ i ∉ links.keys, ∀ k ∈ links.keys, g.anchorLinks.times i k = 0
  fed : ∀ i k, 0 < g.anchorLinks.times i k → g.isTarget i = true → g.isBoundary k = true → 0 < links.times i k

lemma Closed.drop (h : g.Closed links) (hi : i ∈ links.keys) (hnil : ∀ k, links.times i k = 0) :
    ∃ rest, unlink (links.erase i) i (g.leads i) = .ok rest ∧ g.Closed rest ∧
      (∀ j, j ∈ rest.keys ↔ j ≠ i ∧ j ∈ links.keys) ∧ ∀ j k, rest.times j k ≤ links.times j k := by
  -- all that leads to the node is left and lists it as often as before pruning
  have hsl : g.anchorLinks.times i i = 0 := by rw [← h.times_eq i hi i hi, hnil]
  have hcnt : ∀ j, (g.leads i).count j ≤ times (links.erase i) j i := by
    intro j
    rw [count_leads hregular, times_erase]
    split_ifs with hj
    · rw [hj, hsl]
    · by_cases hmem : j ∈ links.keys
      · rw [h.times_eq j hmem i hi]
      · rw [h.left_out j hmem i hi]
        exact zero_le _
  obtain ⟨rest, hr, hun⟩ := exists_unlink_eq_ok hcnt
  have hks : ∀ j, j ∈ rest.keys ↔ j ≠ i ∧ j ∈ links.keys := fun j => by rw [hun.keys, mem_keys_erase]
  have htm : ∀ j k, rest.times j k = (if j = i then 0 else links.times j k) -
      if k = i then g.anchorLinks.times j i else 0 := fun j k => by
    rw [hun.times, times_erase, count_leads hregular]
  have hle : ∀ j k, rest.times j k ≤ links.times j k := fun j k => by
    rw [htm]
    split_ifs <;> omega
  refine ⟨rest, hr, ⟨?_, fun j hj => h.anchors j ((hks j).1 hj).2, fun j k hpos => ?_,
    fun j hj k hk => ?_, fun j hj k hk => ?_, fun j k hpos htgt hb => ?_⟩, hks, hle⟩
  · rw [hun.keys]
    exact nodup_keys_erase i h.keys_nodup
  · refine (h.listed j k (lt_of_lt_of_le hpos (hle j k))).imp_right fun hk => ?_
    refine (hks k).2 ⟨?_, hk⟩
    rintro rfl
    -- the node itself is listed no more
    have hj := mem_keys_of_times_pos hpos
    rw [hks] at hj
    rw [htm, if_neg hj.1, if_pos rfl, h.times_eq j hj.2 k hi, Nat.sub_self] at hpos
    exact lt_irrefl 0 hpos
  · rw [hks] at hj hk
    rw [htm, if_neg hj.1, if_neg hk.1, Nat.sub_zero, h.times_eq j hj.2 k hk.2]
  · rw [hks] at hj hk
    by_cases hji : j = i
    · rw [hji, ← h.times_eq i hi k hk.2, hnil]
    · exact h.left_out j (fun hmem => hj ⟨hji, hmem⟩) k hk.2
  · have hfed := h.fed j k hpos htgt hb
    have hji : j ≠ i := fun e => by rw [e, hnil] at hfed; exact lt_irrefl 0 hfed
    have hki : k ≠ i := fun e => by
      rw [e, ((mem_keys_anchorLinks hregular).1 (h.anchors i hi)).2] at hb
      cases hb
    rwa [htm, if_neg hji, if_neg hki]

/-- Dropping nodes without inputs until there are none goes well. -/
lemma Closed.dropEmpty (h : g.Closed links) (fuel : ℕ) :
    ∃ rest, dropEmpty (reversed g.anchorLinks) fuel links = .ok rest ∧ g.Closed rest := by
  induction fuel generalizing links with
  | zero => exact ⟨links, rfl, h⟩
  | succ fuel ih =>
    rw [dropEmpty]
    split_ifs with hno
    · exact ⟨links, rfl, h⟩
    · have hnd : ((links.entries.filter (·.2.isEmpty)).map Prod.fst).Nodup :=
        h.keys_nodup.sublist (filter_sublist.map Prod.fst)
      have hem : ∀ i ∈ (links.entries.filter (·.2.isEmpty)).map Prod.fst,
          i ∈ links.keys ∧ ∀ k, links.times i k = 0 := by
        intro i hi
        obtain ⟨e, he, rfl⟩ := mem_map.1 hi
        obtain ⟨he, hnil⟩ := mem_filter.1 he
        refine ⟨mem_map_of_mem he, fun k => ?_⟩
        rw [times_of_get? (get?_of_mem h.keys_nodup he), isEmpty_iff.1 hnil]
        rfl
      generalize (links.entries.filter (·.2.isEmpty)).map Prod.fst = empty at hnd hem
      -- the nodes still to be dropped stay and stay without inputs
      obtain ⟨next, hnx, hcl, -⟩ := foldlM_eq_ok (f := fun links i => unlink (links.erase i) i (g.leads i)) (l := empty)
        (fun seen now => g.Closed now ∧ (∀ j, j ∈ links.keys → j ∉ seen → j ∈ now.keys) ∧
          ∀ j k, now.times j k ≤ links.times j k)
        ⟨h, fun _ hj _ => hj, fun _ _ => le_rfl⟩ (by
          rintro seen i later now rfl ⟨hcl, hst, hle⟩
          obtain ⟨hi, hz⟩ := hem i (by simp)
          have hsn := notMem_seen hnd rfl
          obtain ⟨after, haft, hcl', hks, hle'⟩ := hcl.drop hregular (hst i hi hsn) fun k => le_zero.1 (hz k ▸ hle i k)
          refine ⟨after, haft, hcl', fun j hj hj' => ?_, fun j k => ?_⟩
          · simp only [mem_append, mem_singleton, not_or] at hj'
            exact (hks j).2 ⟨hj'.2, hst j hj hj'.1⟩
          · exact (hle' j k).trans (hle j k))
      obtain ⟨rest, hr, hcl'⟩ := ih hcl
      exact ⟨rest, by rw [hnx, ok_bind, hr], hcl'⟩

/-! ### Following every input -/

/-- Links that can be followed: every input of a node is a boundary node or has links itself. A
join is left out only if none of its nearest ancestors is left, and a target only if moreover none
of them is a boundary node. -/
structure Followable (g : Graph) (links : Links) : Prop where
  listed : ∀ i inputs, links.get? i = some inputs → ∀ k ∈ inputs, g.isBoundary k = true ∨ k ∈ links.keys
  join_left_out : ∀ i, g.joins i = true → g.isTarget i = false → i ∉ links.keys →
    ∀ k ∈ g.nearestOf i, g.isBoundary k = true ∨ k ∉ links.keys
  target_left_out : ∀ i, g.isTarget i = true → g.isBoundary i = false → i ∉ links.keys →
    ∀ k ∈ g.nearestOf i, g.isBoundary k = false ∧ k ∉ links.keys

/-- All nearest ancestors of a join that is adrift are adrift, and those of a target are adrift only
if they are boundary nodes. -/
structure Grounded (g : Graph) : Prop where
  joins : ∀ i < g.nodes.length, g.joins i = true → g.adrift i = true → ∀ k ∈ g.nearestOf i, g.adrift k = true
  targets : ∀ i < g.nodes.length, g.isTarget i = true → ∀ k ∈ g.nearestOf i, g.adrift k = true → g.isBoundary k = true

lemma not_adrift_of_isTarget (hi : i ∈ g.anchorLinks.keys) (htgt : g.isTarget i) : g.adrift i = false := by
  rw [adrift_eq hregular hi, htgt]
  rfl

lemma isTarget_of_adrift (hi : i ∈ g.anchorLinks.keys) (had : g.adrift i) : g.isTarget i = false := by
  by_contra htgt
  rw [not_adrift_of_isTarget hregular hi (by simpa using htgt)] at had
  cases had

lemma Closed.followable (h : g.Closed links) : g.Followable links := by
  refine ⟨fun i inputs hi k hk => h.listed i k (times_pos.2 ⟨inputs, hi, hk⟩), ?_, ?_⟩
  · intro i hjn _ hgn k hk
    cases hb : g.isBoundary i with
    | true =>
      rw [nearestOf_of_isBoundary hb, mem_singleton] at hk
      exact .inl (hk ▸ hb)
    | false =>
      have hi : i ∈ g.anchorLinks.keys := (mem_keys_anchorLinks hregular).2 ⟨by rw [isAnchor, hjn, Bool.or_true], hb⟩
      refine .inr fun hmem => ?_
      have hpos := (times_anchorLinks_pos hregular).2 ⟨hi, hk⟩
      rw [h.left_out i hgn k hmem] at hpos
      exact lt_irrefl 0 hpos
  · intro i htgt hb hgn k hk
    have hi : i ∈ g.anchorLinks.keys := (mem_keys_anchorLinks hregular).2 ⟨by rw [isAnchor, htgt, Bool.true_or], hb⟩
    have hpos := (times_anchorLinks_pos hregular).2 ⟨hi, hk⟩
    refine ⟨?_, fun hmem => ?_⟩
    · by_contra hbk
      rw [Bool.not_eq_false] at hbk
      exact hgn (mem_keys_of_times_pos (h.fed i k hpos htgt hbk))
    · rw [h.left_out i hgn k hmem] at hpos
      exact lt_irrefl 0 hpos

lemma Grounded.closed_prune (h : g.Grounded)
    (hrc : ∀ i < g.nodes.length, g.joins i → g.isTarget i = false → g.adrift i = false → (g.nearestOf i).IsChain g.Reaches)
    {fuel : ℕ} (hfl : g.anchorLinks.entries.length < fuel) : g.Closed (g.prune fuel g.anchorLinks) := by
  obtain ⟨hpr, hks, hjo⟩ := prune_spec hregular hfl
  have hlt : ∀ i ∈ g.anchorLinks.keys, i < g.nodes.length := fun i hi =>
    lt_length_of_isAnchor ((mem_keys_anchorLinks hregular).1 hi).1
  refine ⟨hpr.keys_nodup, hpr.anchors, fun i k hpos => ?_, fun i hi k hk => ?_,
    fun i hgn k hk => ?_, fun i k hpos htgt _ => ?_⟩
  · obtain ⟨inputs, hins, hk⟩ := times_pos.1 hpos
    obtain ⟨hi, had⟩ := (hks i).1 (mem_keys_of_get? hins)
    have hkn := (hpr.kind hregular hins hk).2
    rw [hks]
    refine hkn.imp_right fun hkey => ⟨hkey, ?_⟩
    have hb : g.isBoundary k = false := ((mem_keys_anchorLinks hregular).1 hkey).2
    cases htgt : g.isTarget i with
    | true =>
      rw [(hpr.leaves i inputs hins).target htgt] at hk
      by_contra hk'
      rw [h.targets i (hlt i hi) htgt k hk (by simpa using hk')] at hb
      cases hb
    | false =>
      have hjn : g.joins i := by simpa [isAnchor, htgt] using ((mem_keys_anchorLinks hregular).1 hi).1
      have := hjo i inputs hins htgt (hrc i (hlt i hi) hjn htgt had) k hk
      simpa [hb] using this
  · obtain ⟨inputs, hins⟩ := exists_get? hi
    have han : g.anchorLinks.get? i = some (g.nearestOf i) := by
      rw [get?_anchorLinks hregular, if_pos ((mem_keys_anchorLinks hregular).1 (hpr.anchors i hi))]
    rw [times_of_get? hins, times_of_get? han, (hpr.leaves i inputs hins).count k ((hks k).1 hk).2]
  · by_contra hne
    obtain ⟨hi, hmem⟩ := (times_anchorLinks_pos hregular).1 (pos_of_ne_zero hne)
    have had : g.adrift i := by simpa [hks, hi] using hgn
    have hjn : g.joins i := by simpa [isAnchor, isTarget_of_adrift hregular hi had] using ((mem_keys_anchorLinks hregular).1 hi).1
    have hk' := ((hks k).1 hk).2
    rw [h.joins i (hlt i hi) hjn had k hmem] at hk'
    cases hk'
  · obtain ⟨hi, hmem⟩ := (times_anchorLinks_pos hregular).1 hpos
    obtain ⟨inputs, hins⟩ := exists_get? ((hks i).2 ⟨hi, not_adrift_of_isTarget hregular hi htgt⟩)
    refine times_pos.2 ⟨inputs, hins, ?_⟩
    rwa [(hpr.leaves i inputs hins).target htgt]

lemma Followable.grounded (h : g.Followable links) (hln : g.inputLinks = .ok links) : g.Grounded := by
  obtain ⟨hpr, hks, -⟩ := prune_spec hregular (lt_succ_self g.anchorLinks.entries.length)
  have hdr := fun P hst hP => dropEmpty_induction (P := P) hst _ _ hpr.keys_nodup hP hln
  have han : ∀ i, g.isAnchor i → ∀ k ∈ g.nearestOf i, g.isBoundary i ∧ k = i ∨ i ∈ g.anchorLinks.keys := by
    intro i hi k hk
    cases hb : g.isBoundary i with
    | true =>
      rw [nearestOf_of_isBoundary hb, mem_singleton] at hk
      exact .inl ⟨rfl, hk⟩
    | false => exact .inr ((mem_keys_anchorLinks hregular).2 ⟨hi, hb⟩)
  have hgn {i : ℕ} (had : g.adrift i) : i ∉ (g.prune (g.anchorLinks.entries.length + 1) g.anchorLinks).keys := by
    intro hmem
    rw [((hks i).1 hmem).2] at had
    cases had
  refine ⟨fun i _ hjn had k hk => ?_, fun i _ htgt k hk had => ?_⟩
  · rcases han i (by rw [isAnchor, hjn, Bool.or_true]) k hk with ⟨-, rfl⟩ | hi
    · exact had
    · by_contra hk'
      rw [Bool.not_eq_true] at hk'
      have hkb := isBoundary_of_not_adrift hk'
      have hkey : k ∈ g.anchorLinks.keys := by simpa [hkb] using (of_mem_nearestOf hregular hi hk).2
      have htgt := isTarget_of_adrift hregular hi had
      -- the ancestor cannot be dropped, since it would be taken out of the inputs of the join
      obtain ⟨hk'', hi'⟩ := hdr (fun now => k ∈ now.keys ∧ i ∉ now.keys) (by
        rintro start now next j - - ⟨hnow, hgn⟩ - hnx
        have hun := unlinked_of_eq_ok hnx
        have hld : i ∈ g.leads k := count_pos_iff.1 (count_leads hregular k i ▸ (times_anchorLinks_pos hregular).2 ⟨hi, hk⟩)
        rw [hun.keys, mem_keys_erase, mem_keys_erase]
        refine ⟨⟨?_, hnow⟩, (hgn ·.2)⟩
        rintro rfl
        exact hgn (mem_keys_erase.1 (hun.named i hld)).2)
        ⟨(hks k).2 ⟨hkey, hk'⟩, hgn had⟩
      rcases h.join_left_out i hjn htgt hi' k hk with hb | hgn
      · rw [hkb] at hb
        cases hb
      · exact hgn hk''
  · rcases han i (by rw [isAnchor, htgt, Bool.true_or]) k hk with ⟨hb, rfl⟩ | hi
    · exact hb
    · obtain ⟨inputs, hins⟩ := exists_get? ((hks i).2 ⟨hi, not_adrift_of_isTarget hregular hi htgt⟩)
      -- the target keeps the ancestor, which is gone and is not dropped any more
      obtain ⟨hgn, hpos⟩ := hdr (fun now => k ∉ now.keys ∧ 0 < now.times i k) (by
        rintro start now next j hj ⟨hstr, -⟩ ⟨hnow, hpos⟩ hz hnx
        have hun := unlinked_of_eq_ok hnx
        have hij : i ≠ j := fun e => by rw [e, hz] at hpos; exact lt_irrefl 0 hpos
        have hkj : k ≠ j := fun e => hstr (e ▸ hj)
        rw [hun.keys, mem_keys_erase, hun.times, times_erase, if_neg hij, if_neg hkj]
        exact ⟨(hnow ·.2), hpos⟩)
        ⟨hgn had, times_pos.2 ⟨inputs, hins, by rwa [(hpr.leaves i inputs hins).target htgt]⟩⟩
      obtain ⟨inputs, hins, hk'⟩ := times_pos.1 hpos
      exact (h.listed i inputs hins k hk').resolve_right hgn

end

/-- If no tuple joins inputs and the walks over the inputs of joins come to all that is adrift, the
links of a graph can be made and followed exactly if the graph is grounded. -/
theorem followable_iff_grounded (hregular : g.Regular)
    (hreached : ∀ i < g.nodes.length, g.joins i = true → g.isTarget i = false →
      g.adrift i = false → (g.nearestOf i).IsChain g.Reaches) :
    (∃ links, g.inputLinks = .ok links ∧ g.Followable links) ↔ g.Grounded := by
  constructor
  · rintro ⟨links, hlinks, hfollow⟩
    exact hfollow.grounded hregular hlinks
  · intro hgrounded
    have hclosed := hgrounded.closed_prune hregular hreached
      (Nat.lt_succ_self g.anchorLinks.entries.length)
    obtain ⟨links, hlinks, hrest⟩ := hclosed.dropEmpty hregular _
    exact ⟨links, hlinks, hrest.followable hregular⟩

/-- A convolution and a sum of plain data, joined before another convolution. -/
def joinedData : Graph where
  nodes := [{ name := some "data" }, { op := some "conv2d", inputs := [0] },
    { op := some "add", inputs := [0, 0] }, { op := some "concatenate", inputs := [1, 2] },
    { op := some "conv2d", inputs := [3] }]
  targets := ["conv2d"]
  inputNames := ["data"]

theorem joinedData_followable :
    joinedData.Regular ∧ (∀ i < joinedData.nodes.length, joinedData.joins i = true →
      joinedData.isTarget i = false → joinedData.adrift i = false →
      (joinedData.nearestOf i).IsChain joinedData.Reaches) ∧ joinedData.Grounded ∧
    ∃ links, joinedData.inputLinks = .ok links ∧ joinedData.Followable links := by
  have hregular : joinedData.Regular := ⟨by decide +kernel, by decide +kernel⟩
  have hreached : ∀ i < joinedData.nodes.length, joinedData.joins i = true →
      joinedData.isTarget i = false → joinedData.adrift i = false →
      (joinedData.nearestOf i).IsChain joinedData.Reaches := by decide +kernel
  have hgrounded : joinedData.Grounded := ⟨by decide +kernel, by decide +kernel⟩
  exact ⟨hregular, hreached, hgrounded, (followable_iff_grounded hregular hreached).2 hgrounded⟩

/-- A sum of data and a convolution of it, in this order, before another convolution. -/
def dataFirst : Graph where
  nodes := [{ name := some "data" }, { op := some "conv2d", inputs := [0] },
    { op := some "add", inputs := [0, 1] }, { op := some "conv2d", inputs := [2] }]
  targets := ["conv2d"]
  inputNames := ["data"]

/-- A sum of data and a convolution that depends on weights alone. -/
def weightsOnly : Graph where
  nodes := [{ name := some "data" }, { name := some "weight" },
    { op := some "conv2d", inputs := [1] }, { op := some "add", inputs := [0, 2] }]
  targets := ["conv2d"]
  inputNames := ["data"]

/-- A convolution joined with a sum and a product of data, which follow one another. -/
def followingSums : Graph where
  nodes := [{ name := some "data" }, { op := some "conv2d", inputs := [0] },
    { op := some "add", inputs := [0, 0] }, { op := some "multiply", inputs := [0, 0] },
    { op := some "concatenate", inputs := [1, 2, 3] }]
  targets := ["conv2d"]
  inputNames := ["data"]

/-- Two convolutions in a tuple, joined for another one. -/
def tupleJoin : Graph where
  nodes := [{ name := some "data" }, { op := some "conv2d", inputs := [0] },
    { op := some "conv2d", inputs := [0] }, { inputs := [1, 2], isTuple := true },
    { op := some "concatenate", inputs := [3] }, { op := some "conv2d", inputs := [4] }]
  targets := ["conv2d"]
  inputNames := ["data"]

/-- Links cannot always be made and followed. A join whose first input is plain data is pruned
although its other input is kept, and stays listed by a target. When an input is dropped, it is to
be taken out of the inputs of a join that has been pruned. A walk passes over the second of two
joins that it should take away. A tuple that joins inputs is listed and has no links. -/
theorem inputLinks_not_followable :
    (dataFirst.Ordered ∧ dataFirst.inputLinks = .ok ⟨[(1, [0]), (3, [2])]⟩ ∧
      ¬ dataFirst.Followable ⟨[(1, [0]), (3, [2])]⟩) ∧
    (weightsOnly.Ordered ∧ weightsOnly.inputLinks = .error (.plain .missingKey)) ∧
    (followingSums.Ordered ∧ followingSums.inputLinks = .ok ⟨[(1, [0]), (4, [1, 3])]⟩ ∧
      ¬ followingSums.Followable ⟨[(1, [0]), (4, [1, 3])]⟩) ∧
    tupleJoin.Ordered ∧ tupleJoin.inputLinks = .ok ⟨[(1, [0]), (2, [0]), (5, [3])]⟩ ∧
      ¬ tupleJoin.Followable ⟨[(1, [0]), (2, [0]), (5, [3])]⟩ := by
  refine ⟨⟨by decide +kernel, by decide +kernel, fun h => ?_⟩,
    ⟨by decide +kernel, by decide +kernel⟩, ⟨by decide +kernel, by decide +kernel, fun h => ?_⟩,
    by decide +kernel, by decide +kernel, fun h => ?_⟩
  · exact absurd (h.listed 3 [2] rfl 2 (by simp)) (by decide +kernel)
  · exact absurd (h.listed 4 [1, 3] rfl 3 (by simp)) (by decide +kernel)
  · exact absurd (h.listed 5 [3] rfl 3 (by simp)) (by decide +kernel)

end Graph

end TensorToolchain.LayoutChoice
