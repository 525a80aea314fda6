import TensorToolchain.Proofs.Faults
import TensorToolchain.Tuning.Subspace

/-!
# Enumerated orders of axes

All permutations are enumerated, each once, of all axes or of those in an interval. Interleaving
chains of axes leaves none out and keeps the order of each chain, however the longest chain is
chosen.
-/

namespace TensorToolchain.Tuning

open List ReorderRequest

variable {α : Type} {n : ℕ} {xs p : List α} {chains : List (List α)}

lemma perm_of_mem_picks {q : α × List α} (hq : q ∈ picks xs) : (q.1 :: q.2).Perm xs := by
  induction xs generalizing q with
  | nil => cases hq
  | cons x xs ih =>
    rcases mem_cons.1 hq with rfl | hq
    · exact .refl _
    · obtain ⟨r, hr, rfl⟩ := mem_map.1 hq
      exact (Perm.swap x r.1 r.2).trans ((ih hr).cons x)

lemma map_fst_picks (xs : List α) : (picks xs).map Prod.fst = xs := by
  induction xs with
  | nil => rfl
  | cons x xs ih =>
    rw [picks, map_cons, map_map]
    exact congrArg (x :: ·) ih

lemma mem_permutationsOf (hn : xs.length = n) : p ∈ permutationsOf n xs ↔ p.Perm xs := by
  induction n generalizing xs p with
  | zero => rw [length_eq_zero_iff.1 hn, permutationsOf, mem_singleton, perm_nil]
  | succ n ih =>
    have hrs : ∀ q ∈ picks xs, ∀ r, r ∈ permutationsOf n q.2 ↔ r.Perm q.2 := fun q hq r =>
      ih (by have := (perm_of_mem_picks hq).length_eq; rw [length_cons] at this; omega)
    rw [permutationsOf, mem_flatMap]
    constructor
    · rintro ⟨q, hq, hp⟩
      obtain ⟨r, hr, rfl⟩ := mem_map.1 hp
      exact (((hrs q hq r).1 hr).cons q.1).trans (perm_of_mem_picks hq)
    · intro hp
      obtain ⟨x, r, rfl⟩ := exists_cons_of_length_eq_add_one (hp.length_eq.trans hn)
      obtain ⟨q, hq, rfl⟩ := mem_map.1 ((map_fst_picks xs).symm ▸ hp.subset mem_cons_self)
      have hr := (hp.trans (perm_of_mem_picks hq).symm).cons_inv
      exact ⟨q, hq, mem_map_of_mem ((hrs q hq r).2 hr)⟩

lemma nodup_permutationsOf (hxs : xs.Nodup) (n : ℕ) : (permutationsOf n xs).Nodup := by
  induction n generalizing xs with
  | zero => exact nodup_singleton _
  | succ n ih =>
    refine nodup_flatMap.2 ⟨fun q hq => ?_, ?_⟩
    · exact (ih ((perm_of_mem_picks hq).nodup_iff.2 hxs).of_cons).map (cons_injective)
    · -- permutations with different first items differ
      rw [← map_fst_picks xs, nodup_iff_pairwise_ne, pairwise_map] at hxs
      refine hxs.imp fun hne => disjoint_left.2 fun p hp hp' => hne ?_
      obtain ⟨r, -, rfl⟩ := mem_map.1 hp
      obtain ⟨r', -, h⟩ := mem_map.1 hp'
      exact (cons.inj h).1.symm

lemma mem_permutations : p ∈ permutations xs ↔ p.Perm xs := mem_permutationsOf rfl

/-! ### Interleaved chains -/

/-- Unless all chains are empty, the first longest one has a first item. -/
lemma longest_eq (h : 0 < (chains.map length).sum) : ∃ pre x rest post,
    chains = pre ++ (x :: rest) :: post ∧ longest chains = some pre.length := by
  obtain ⟨hmem, hle⟩ := max?_eq_some_iff.1 (max?_cons' : (0 :: chains.map length).max? = _)
  set top := (chains.map length).foldl max 0 with htop
  have hpos : top ≠ 0 := fun hz => h.ne' (sum_eq_zero_iff.2 fun l hl => by
    simpa [hz] using hle l (mem_cons_of_mem 0 hl))
  obtain ⟨c, hc, hlen⟩ := mem_map.1 ((mem_cons.1 hmem).resolve_left hpos)
  have hsm : (longest chains).isSome := by
    rw [longest, findIdx?_isSome, any_eq_true]
    exact ⟨c, hc, by simpa [← htop] using hlen⟩
  obtain ⟨i, hi⟩ := Option.isSome_iff_exists.1 hsm
  obtain ⟨hlt, hlen, -⟩ := findIdx?_eq_some_iff_getElem.1 hi
  obtain ⟨x, rest, hx⟩ : ∃ x rest, chains[i] = x :: rest := by
    refine exists_cons_of_length_pos ?_
    have : chains[i].length = top := by simpa [← htop] using hlen
    omega
  refine ⟨chains.take i, x, rest, chains.drop (i + 1), ?_, ?_⟩
  · rw [← hx, getElem_cons_drop, take_append_drop]
  · rw [hi, length_take, min_eq_left hlt.le]

/-- Merging takes every item of every chain, and those of one chain in their order. -/
lemma mergeChains_spec (hn : (chains.map length).sum = n) :
    (mergeChains n chains).Perm chains.flatten ∧ ∀ c ∈ chains, c.Sublist (mergeChains n chains) := by
  induction n generalizing chains with
  | zero =>
    have hnil : ∀ c ∈ chains, c = [] := fun c hc => by
      have := le_sum_of_mem (mem_map_of_mem (f := length) hc)
      exact length_eq_zero_iff.1 (by omega)
    rw [flatten_eq_nil_iff.2 hnil]
    exact ⟨.refl _, fun c hc => hnil c hc ▸ .refl _⟩
  | succ n ih =>
    obtain ⟨pre, x, rest, post, rfl, hi⟩ := longest_eq (by omega : 0 < (chains.map length).sum)
    have hget : (pre ++ (x :: rest) :: post)[pre.length]? = some (x :: rest) := by simp
    have hset : (pre ++ (x :: rest) :: post).set pre.length rest = pre ++ rest :: post := by simp
    simp only [mergeChains, hi, hget, hset]
    simp only [map_append, map_cons, sum_append, sum_cons, length_cons] at hn
    obtain ⟨hpm, hsub⟩ := ih (by simp only [map_append, map_cons, sum_append, sum_cons]; omega :
      ((pre ++ rest :: post).map length).sum = n)
    refine ⟨(hpm.cons x).trans ?_, fun c hc => ?_⟩
    · simp only [flatten_append, flatten_cons, cons_append]
      exact perm_middle.symm
    · rcases mem_append.1 hc with hc | hc
      · exact (hsub c (mem_append_left _ hc)).cons x
      · rcases mem_cons.1 hc with rfl | hc
        · exact (hsub rest (by simp)).cons_cons x
        · exact (hsub c (mem_append_right _ (mem_cons_of_mem _ hc))).cons x

lemma mergeAll_spec (chains : List (List α)) :
    (mergeAll chains).Perm chains.flatten ∧ ∀ c ∈ chains, c.Sublist (mergeAll chains) :=
  mergeChains_spec sum_eq_foldl

/-! ### Intervals -/

lemma interval_eq (a b : ℕ) : interval a b = (range' a (b - a)).map Int.ofNat := by
  rw [interval, range'_eq_map_range, map_map, Int.toNat_sub]
  rfl

lemma length_interval (a b : ℕ) : (interval a b).length = b - a := by rw [interval_eq, length_map, length_range']

lemma interval_append {a b c : ℕ} (hab : a ≤ b) (hbc : b ≤ c) : interval a b ++ interval b c = interval a c := by
  have hlen : c - a = (b - a) + (c - b) := by omega
  rw [interval_eq, interval_eq, interval_eq, ← map_append, hlen, ← range'_append_1, Nat.add_sub_cancel' hab]

lemma nodup_interval (a b : ℤ) : (interval a b).Nodup := nodup_range.map fun _ _ h => Int.ofNat.inj (add_left_cancel h)

/-- The permutations of a part are the permutations of the whole that keep what is before and
after. -/
lemma exists_between_iff (p before mid after : List α) :
    (∃ q, q.Perm mid ∧ before ++ q ++ after = p) ↔ p.Perm (before ++ mid ++ after) ∧
      p.take before.length = before ∧ p.drop (before.length + mid.length) = after := by
  constructor
  · rintro ⟨q, hq, rfl⟩
    exact ⟨(hq.append_left _).append_right _, by simp, by simp [← hq.length_eq]⟩
  · rintro ⟨hp, hbef, haft⟩
    have hsp : before ++ (p.drop before.length).take mid.length ++ after = p := by
      conv_rhs => rw [← take_append_drop before.length p, hbef,
        ← take_append_drop mid.length (p.drop before.length), drop_drop, haft]
      exact append_assoc ..
    refine ⟨_, ?_, hsp⟩
    rwa [← hsp, perm_append_right_iff, perm_append_left_iff] at hp

/-! ### Orders that are asked for -/

/-- The settings of a request for orders are some orders in one form. -/
def ReorderRequest.Enumerates (r : ReorderRequest) (form : Form) (ps : List (List ℤ)) : Prop :=
  r.entities = .ok (ps.map (.reorder form))

/-- An order that takes the outer parts of the spatial chains and the reduce chains as they are, and
all last axes of spatial chains after all outer parts. -/
structure Interleaves (spatial reduce : List (List ℤ)) (p : List ℤ) : Prop where
  outer : ∀ c ∈ spatial, c.dropLast.Sublist p
  reduce : ∀ c ∈ reduce, c.Sublist p
  last : ∀ c ∈ spatial, ∀ x ∈ c.dropLast, ∀ d ∈ spatial, ∀ y ∈ d.getLast?, [x, y].Sublist p

abbrev lasts (chains : List (List ℤ)) : List (List ℤ) := chains.map (·.getLast?.toList)

/-- The outer parts and the last axes of chains are all their axes. -/
lemma perm_outer_last (spatial : List (List ℤ)) : ((spatial.map dropLast).flatten ++
    (lasts spatial).flatten).Perm spatial.flatten := by
  induction spatial with
  | nil => exact .refl _
  | cons c spatial ih =>
    have hc : c.dropLast ++ c.getLast?.toList = c := by
      rcases eq_nil_or_concat c with rfl | ⟨c, x, rfl⟩ <;> simp
    simp only [map_cons, flatten_cons]
    calc c.dropLast ++ _ ++ (c.getLast?.toList ++ _)
      _ ~ c.dropLast ++ (c.getLast?.toList ++ _) := by
        rw [append_assoc]
        exact (perm_append_comm_assoc ..).append_left _
      _ = c ++ _ := by rw [← append_assoc, hc]
      _ ~ c ++ spatial.flatten := ih.append_left c

lemma interleaves_append {spatial reduce : List (List ℤ)} {inner : List ℤ}
    (hin : inner.Perm ((lasts spatial).flatten ++ reduce.flatten)) (hrd : ∀ c ∈ reduce, c.Sublist inner) :
    (mergeAll (spatial.map dropLast) ++ inner).Perm (spatial.flatten ++ reduce.flatten) ∧
      Interleaves spatial reduce (mergeAll (spatial.map dropLast) ++ inner) := by
  obtain ⟨hpm, hsub⟩ := mergeAll_spec (spatial.map dropLast)
  have hot := fun c hc => hsub _ (mem_map_of_mem (a := c) hc)
  refine ⟨?_, fun c hc => (hot c hc).trans (sublist_append_left _ _),
    fun c hc => (hrd c hc).trans (sublist_append_right _ _), fun c hc x hx d hd y hy => ?_⟩
  · refine (hpm.append hin).trans ?_
    rw [← append_assoc]
    exact (perm_outer_last spatial).append_right _
  · have hy : y ∈ inner := hin.mem_iff.2 (mem_append_left _
      (mem_flatten_of_mem (mem_map_of_mem hd) (Option.mem_toList.2 hy)))
    exact (singleton_sublist.2 ((hot c hc).subset hx)).append (singleton_sublist.2 hy)

lemma mapM_getLast_eq_ok {spatial : List (List ℤ)} (h : ∀ c ∈ spatial, c ≠ []) :
    spatial.mapM (orFail .badIndex ·.getLast?) = .ok (lasts spatial).flatten := by
  have hlst : ∀ c ∈ spatial, c.getLast? = some (c.getLastD 0) := fun c hc => by
    rw [getLast?_eq_some_getLast (h c hc), getLastD_eq_getLast?, getLast?_eq_some_getLast (h c hc)]
    rfl
  rw [mapM_eq_ok fun c hc => congrArg (orFail .badIndex) (hlst c hc), lasts,
    map_congr_left fun c hc => congrArg Option.toList (hlst c hc)]
  simp [← flatMap_def, ← map_eq_flatMap]

lemma positions_eq_ok {r : ReorderRequest} {chains : List (List ℤ)}
    (h : ∀ c ∈ chains, ∀ i ∈ c, i ∈ interval (0 : ℕ) r.axes) : r.positions (some chains) = .ok chains := by
  have hps : ∀ c ∈ chains, ∀ i ∈ c, r.position i = .ok i := fun c hc i hi => by
    obtain ⟨k, hk, rfl⟩ := mem_map.1 (interval_eq 0 r.axes ▸ h c hc i hi)
    have hk := (mem_range'_1.1 hk).2
    have hneg : ¬ (k : ℤ) < 0 := by omega
    have hlt : (k : ℤ) < r.axes := by omega
    simp [position, hneg, hlt]
  rw [positions, orFail_some, ok_bind]
  refine (mapM_eq_ok fun c hc => ?_).trans (by rw [map_id])
  exact (mapM_eq_ok (hps c hc)).trans (by rw [map_id']; rfl)

/-- What the policies for orders enumerate: all permutations of the axes, each once; those that keep
the axes outside an interval, each once; and, for chains that hold every axis once, some
permutations that keep the chains. -/
theorem orders_enumerated (n : ℕ) :
    (∃ ps, Enumerates { axes := n, policy := "all" } .tuple ps ∧ ps.Nodup ∧
      ∀ p, p ∈ ps ↔ p.Perm (interval 0 n)) ∧
    (∀ a b : ℕ, a ≤ b → b ≤ n → ∃ ps, Enumerates
        { axes := n, policy := "interval_all", interval := some [a, b] } .tuple ps ∧ ps.Nodup ∧
      ∀ p, p ∈ ps ↔ p.Perm (interval 0 n) ∧ p.take a = interval 0 a ∧ p.drop b = interval b n) ∧
    ∀ policy ∈ ["interleave", "interleave_cuda"], ∀ spatial reduce : List (List ℤ),
      (∀ c ∈ spatial, c ≠ []) → (spatial.flatten ++ reduce.flatten).Perm (interval 0 n) →
      ∃ ps, ps ≠ [] ∧ Enumerates
          { axes := n, policy, spatial := some spatial, reduce := some reduce } .list ps ∧
        ∀ p ∈ ps, p.Perm (interval 0 n) ∧ Interleaves spatial reduce p := by
  refine ⟨⟨_, rfl, nodup_permutationsOf (nodup_interval 0 n) _, fun p => mem_permutations⟩,
    fun a b hab hbn => ⟨(permutations (interval a b)).map fun q => interval 0 a ++ q ++ interval b n,
      ?_, ?_, fun p => ?_⟩, fun policy hpolicy spatial reduce hspatial hperm => ?_⟩
  · rw [Enumerates, map_map]
    rfl
  · refine (nodup_permutationsOf (nodup_interval a b) _).map fun q q' h => ?_
    simpa using h
  · have hiff := exists_between_iff p (interval (0 : ℕ) a) (interval a b) (interval b n)
    rw [interval_append (Nat.zero_le a) hab, interval_append (Nat.zero_le b) hbn, length_interval,
      length_interval, Nat.sub_zero, Nat.add_sub_cancel' hab] at hiff
    simp only [mem_map, mem_permutations]
    exact hiff
  · have hin : ∀ c ∈ spatial ++ reduce, ∀ i ∈ c, i ∈ interval 0 n := fun c hc i hi =>
      hperm.subset (flatten_append ▸ mem_flatten_of_mem hc hi)
    have hpositions : ∀ chains ⊆ spatial ++ reduce, ∀ r : ReorderRequest, r.axes = n →
        r.positions (some chains) = .ok chains := by
      rintro chains hsub r rfl
      exact positions_eq_ok fun c hc => hin c (hsub hc)
    have hs := hpositions spatial (subset_append_left _ _)
    have hr := hpositions reduce (subset_append_right _ _)
    simp only [mem_cons, not_mem_nil, or_false] at hpolicy
    rcases hpolicy with rfl | rfl
    · obtain ⟨hinner, hsub⟩ := mergeAll_spec (lasts spatial ++ reduce)
      rw [flatten_append] at hinner
      obtain ⟨hp, hkeeps⟩ := interleaves_append hinner fun c hc => hsub c (mem_append_right _ hc)
      refine ⟨[_], cons_ne_nil _ _, ?_, by simpa using ⟨hp.trans hperm, hkeeps⟩⟩
      simp only [Enumerates, entities, orFail_some, ok_bind, hs, hr, pure_eq_ok, map_cons, map_nil]
    · obtain ⟨hreduce, hsub⟩ := mergeAll_spec reduce
      obtain ⟨hp, hkeeps⟩ := interleaves_append
        (perm_append_comm.trans (hreduce.append_left _)) fun c hc =>
          (hsub c hc).trans (sublist_append_left _ (lasts spatial).flatten)
      refine ⟨[_], cons_ne_nil _ _, ?_, by simpa using ⟨hp.trans hperm, hkeeps⟩⟩
      simp only [Enumerates, entities, orFail_some, ok_bind, hs, hr, mapM_getLast_eq_ok hspatial,
        pure_eq_ok, map_cons, map_nil, append_assoc]

theorem fourAxes_interleaved :
    ∃ ps, ps ≠ [] ∧ Enumerates { axes := 4, policy := "interleave_cuda",
                                                spatial := some [[0, 3], [1]],
                                                reduce := some [[2]] } .list ps ∧
      ∀ p ∈ ps, p.Perm (interval 0 4) ∧ Interleaves [[0, 3], [1]] [[2]] p := by
  refine (orders_enumerated 4).2.2 _ (by simp) _ _ ?_ ?_ <;> decide

end TensorToolchain.Tuning
