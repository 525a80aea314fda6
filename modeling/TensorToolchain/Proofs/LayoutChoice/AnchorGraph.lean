import TensorToolchain.Proofs.LayoutChoice.Invariant

/-!
# The graph before the first step

The links of a graph name the inputs of each key. Turned around they name the keys that list a
node. The neighbours of a key are its inputs that are no boundary nodes, and then the keys that
list it; every key is filed under the number of its neighbours.
-/

namespace TensorToolchain.LayoutChoice

open List Links Keyed
open Option (map_some)
open Prod (fst)

def Links.consumers (links : Links) (i : ℕ) : List ℕ := (links.entries.filter (i ∈ ·.2)).map fst

def Links.inner (g : Graph) (links : Links) (k : ℕ) : List ℕ := ((links.get? k).getD []).filter (!g.isBoundary ·)

section Reversed

variable {g : Graph} {links : Links} {i k : ℕ}

lemma Links.exists_entry (hi : i ∈ (links.get? k).getD []) :
    ∃ ins, links.get? k = some ins ∧ (k, ins) ∈ links.entries ∧ i ∈ ins := by
  cases hins : links.get? k with
  | none =>
    rw [hins] at hi
    exact absurd hi not_mem_nil
  | some ins =>
    rw [hins] at hi
    exact ⟨ins, rfl, mem_of_get? hins, hi⟩

lemma Links.mem_consumers (hks : links.keys.Nodup) : k ∈ links.consumers i ↔ i ∈ (links.get? k).getD [] := by
  rw [consumers, mem_map]
  constructor
  · rintro ⟨⟨key, ins⟩, he, rfl⟩
    obtain ⟨he, hi⟩ := mem_filter.1 he
    rw [get?_of_mem hks he]
    simpa using hi
  · intro hi
    obtain ⟨ins, -, he, hi⟩ := exists_entry hi
    exact ⟨(k, ins), mem_filter.2 ⟨he, by simpa using hi⟩, rfl⟩

lemma Links.nodup_consumers (hks : links.keys.Nodup) (i : ℕ) : (links.consumers i).Nodup :=
  hks.sublist (filter_sublist.map fst)

lemma Links.mem_inner : i ∈ links.inner g k ↔ i ∈ (links.get? k).getD [] ∧ g.isBoundary i = false := by
  rw [inner, mem_filter, Bool.not_eq_true']

lemma Links.mem_keys_of_mem_inner (hi : i ∈ links.inner g k) : k ∈ links.keys := by
  by_contra hk
  rw [mem_inner, get?_eq_none.2 hk] at hi
  exact not_mem_nil hi.1

def Links.pairs (links : Links) : List (ℕ × ℕ) := links.entries.flatMap fun e => e.2.map (e.1, ·)

/-- A node leads to one key more. -/
def Links.lead (out : Links) (pair : ℕ × ℕ) : Links := out.set pair.2 (((out.get? pair.2).getD []) ++ [pair.1])

lemma Links.reversed_eq (links : Links) : reversed links = links.pairs.foldl lead (links.mapValues fun _ _ => []) := by
  rw [pairs, foldl_flatMap]
  simp only [foldl_map]
  rfl

/-- Turned around, a node leads to each key as often as that one lists it. -/
lemma Links.getD_reversed_eq_pairs (links : Links) (i : ℕ) :
    ((reversed links).get? i).getD [] = (links.pairs.filter (·.2 == i)).map fst := by
  suffices hfl : ∀ (pairs : List (ℕ × ℕ)) (out : Links), ((pairs.foldl lead out).get? i).getD [] =
      (out.get? i).getD [] ++ (pairs.filter (·.2 == i)).map fst by
    rw [reversed_eq, hfl, get?_mapValues]
    cases links.get? i <;> rfl
  intro pairs
  induction pairs with
  | nil => simp
  | cons pair pairs ih =>
    intro out
    rw [foldl_cons, ih, lead, get?_set]
    by_cases hi : i = pair.2
    · simp [hi]
    · simp [hi, Ne.symm hi]

lemma Links.getD_reversed (hnd : ∀ e ∈ links.entries, e.2.Nodup) (i : ℕ) :
    ((reversed links).get? i).getD [] = links.consumers i := by
  rw [getD_reversed_eq_pairs, pairs, consumers]
  generalize links.entries = entries at hnd
  induction entries with
  | nil => rfl
  | cons e entries ih =>
    rw [forall_mem_cons] at hnd
    have hhd : ((e.2.map (e.1, ·)).filter (·.2 == i)).map fst = if i ∈ e.2 then [e.1] else [] := by
      rw [filter_map, map_map]
      change (e.2.filter (· == i)).map (fun _ => e.1) = _
      rw [filter_beq, hnd.1.count]
      split_ifs <;> rfl
    rw [flatMap_cons, filter_append, map_append, hhd, ih hnd.2]
    by_cases hi : i ∈ e.2 <;> simp [hi]

lemma Links.nodup_keys_reversed (hks : links.keys.Nodup) : (reversed links).keys.Nodup := by
  rw [reversed_eq]
  refine foldlRecOn (motive := fun out : Links => out.keys.Nodup) _ _ ?_ fun out hout pair _ =>
    nodup_keys_set pair.2 _ hout
  rwa [keys_mapValues]

end Reversed

namespace Elimination

variable {g : Graph} {inputs : Links}

lemma unlink_consumers (hks : inputs.keys.Nodup) (hnd : ∀ e ∈ inputs.entries, e.2.Nodup) {links : Links}
    {seen : List ℕ} {b : ℕ} (hget : ∀ j, links.get? j = (inputs.get? j).map (·.filter (· ∉ seen))) (hb : b ∉ seen) :
    ∃ next, unlink links b (inputs.consumers b) = .ok next ∧ next.keys = links.keys ∧
      ∀ j, next.get? j = (inputs.get? j).map (·.filter (· ∉ seen ++ [b])) := by
  have hls : ∀ k ∈ inputs.consumers b, ∃ ins, links.get? k = some ins ∧ b ∈ ins := by
    intro k hk
    obtain ⟨ins, hins, -, hk⟩ := exists_entry ((mem_consumers hks).1 hk)
    exact ⟨_, by rw [hget, hins, map_some], mem_filter.2 ⟨hk, by simpa using hb⟩⟩
  obtain ⟨next, hnx, hnxt, hne⟩ := unlink_eq_ok (nodup_consumers hks b) hls
  refine ⟨next, hnx, hnxt, fun j => ?_⟩
  rw [hne, hget]
  cases hins : inputs.get? j with
  | none => simp
  | some ins =>
    have hmem : j ∈ inputs.consumers b ↔ b ∈ ins := by rw [mem_consumers hks, hins, Option.getD_some]
    by_cases hbi : b ∈ ins
    · have hin' : ins.Nodup := hnd (j, ins) (mem_of_get? hins)
      rw [if_pos (hmem.2 hbi), map_some, map_some, (hin'.filter _).erase_eq_filter, filter_filter]
      congr 1
      refine filter_congr fun i _ => ?_
      by_cases hib : i = b <;> simp [hib]
    · rw [if_neg fun hj => hbi (hmem.1 hj), map_some]
      congr 1
      refine filter_congr fun i hi => ?_
      have hib : i ≠ b := fun e => hbi (e ▸ hi)
      simp [hib]

/-- Without the boundary nodes, every key keeps its other inputs. -/
lemma innerLinks_eq_ok (hks : inputs.keys.Nodup) (hnd : ∀ e ∈ inputs.entries, e.2.Nodup) :
    innerLinks g inputs (reversed inputs) = .ok (inputs.mapValues fun _ ins => ins.filter (!g.isBoundary ·)) := by
  have hot := nodup_keys_reversed hks
  set boundary := (reversed inputs).entries.filter fun p => g.isBoundary p.1 with hbnd
  have hbn : (boundary.map fst).Nodup := hot.sublist (filter_sublist.map fst)
  obtain ⟨inner, hin, hinr, hget⟩ : ∃ inner, innerLinks g inputs (reversed inputs) = .ok inner ∧
        inner.keys = inputs.keys ∧ ∀ j, inner.get? j = (inputs.get? j).map (·.filter (· ∉ boundary.map fst)) := by
    refine foldlM_eq_ok (fun seen (links : Links) =>
      links.keys = inputs.keys ∧ ∀ j, links.get? j =
        (inputs.get? j).map (·.filter (· ∉ seen.map fst))) ⟨rfl, fun j => by simp⟩ ?_
    rintro seen ⟨b, list⟩ rest links hsp ⟨hln, hget⟩
    have hmem : (b, list) ∈ (reversed inputs).entries := mem_of_mem_filter (hsp ▸ mem_append_right seen mem_cons_self)
    have hls : list = inputs.consumers b := by rw [← getD_reversed hnd, get?_of_mem hot hmem, Option.getD_some]
    have hb : b ∉ seen.map fst := by
      rw [hbnd, hsp, map_append, nodup_append] at hbn
      exact (hbn.2.2 b · b mem_cons_self rfl)
    obtain ⟨next, hnx, hnxt, hne⟩ := unlink_consumers hks hnd hget hb
    refine ⟨next, hls ▸ hnx, hnxt.trans hln, fun j => ?_⟩
    rw [hne, map_append, map_singleton]
  rw [hin, Except.ok.injEq]
  refine eq_of_get? (by rwa [keys_mapValues]) (by rw [hinr, keys_mapValues]) fun j => ?_
  rw [hget, get?_mapValues]
  cases hins : inputs.get? j with
  | none => rfl
  | some ins =>
    rw [map_some]
    congr 1
    refine filter_congr fun i hi => ?_
    -- a node that is listed is a key of the reversed links
    have hi : i ∈ (reversed inputs).keys := by
      by_contra hno
      have hcn := getD_reversed hnd i
      rw [get?_eq_none.2 hno] at hcn
      have hj : j ∈ inputs.consumers i := (mem_consumers hks).2 (by rwa [hins])
      rw [← hcn] at hj
      exact not_mem_nil hj
    have hiff : i ∈ boundary.map fst ↔ g.isBoundary i := by
      obtain ⟨list, hls⟩ := exists_get? hi
      constructor
      · intro h
        obtain ⟨e, he, rfl⟩ := mem_map.1 h
        exact (mem_filter.1 he).2
      · intro h
        exact mem_map.2 ⟨(i, list), mem_filter.2 ⟨mem_of_get? hls, h⟩, rfl⟩
    by_cases hb : g.isBoundary i = true <;> simp [hiff, hb]

section Start

variable {γ : Type} {links outs : Links} {costs : ℕ → List γ} {i k : ℕ} {ins : List ℕ}

lemma around_start (h : links.get? k = some ins) :
    (start links outs costs).around k = ins ++ (outs.get? k).getD [] := by
  simp [around, start, h]

lemma around_start_of_notMem (hk : k ∉ links.keys) : (start links outs costs).around k = [] := by
  simp [around, start, get?_eq_none.2 hk]

lemma prices_start (hk : k ∈ links.keys) : (start links outs costs).prices k = costs k := by
  obtain ⟨ins, hins⟩ := exists_get? hk
  simp [prices, start, hins]

lemma degree_start (hk : k ∈ links.keys) : (start links outs costs).degree.get? k =
    some ((start links outs costs).around k).length := by
  obtain ⟨ins, hins⟩ := exists_get? hk
  rw [around_start hins]
  simp [start, hins]

lemma room_start (hk : k ∈ links.keys) : ((start links outs costs).around k).length + 2 ≤
    (start links outs costs).buckets.length := by
  have hlen : (start links outs costs).buckets.length =
      ((start links outs costs).degree.values.map (· + 2)).foldl max 1 := by
    simp [start]
  rw [hlen]
  refine (max?_eq_some_iff.1 max?_cons').2 _ (mem_cons_of_mem 1 (mem_map.2 ⟨_, ?_, rfl⟩))
  exact mem_map.2 ⟨_, mem_of_get? (degree_start hk), rfl⟩

lemma mem_buckets_start {d : ℕ} : i ∈ (start links outs costs).buckets.getD d [] ↔
    d < (start links outs costs).buckets.length ∧ i ∈ links.keys ∧ (start links outs costs).degree.get? i = some d := by
  rcases lt_or_ge d (start links outs costs).buckets.length with hd | hd
  · rw [getD_eq_getElem _ _ hd]
    simp only [start, getElem_map, getElem_range, mem_filter, mem_mergeSort, beq_iff_eq]
    exact ⟨fun h => ⟨hd, h⟩, (·.2)⟩
  · rw [getD_eq_default _ _ hd]
    exact ⟨(absurd · not_mem_nil), (absurd ·.1 (not_lt.2 hd))⟩

lemma mem_bucket_start (hk : k ∈ links.keys) : k ∈ (start links outs costs).buckets.getD
    ((start links outs costs).around k).length [] :=
  mem_buckets_start.2 ⟨Nat.le_of_succ_le (room_start hk), hk, degree_start hk⟩

lemma mem_live_start : i ∈ (start links outs costs).live ↔ i ∈ links.keys := by
  rw [live, mem_flatten_iff]
  constructor
  · rintro ⟨d, hi⟩
    exact (mem_buckets_start.1 hi).2.1
  · exact fun hi => ⟨_, mem_bucket_start hi⟩

lemma filed_start (hks : links.keys.Nodup) :
    Filed (start links outs costs).buckets (start links outs costs).degree := by
  refine ⟨fun d => ?_, fun d i hi => (mem_buckets_start.1 hi).2.2⟩
  rcases lt_or_ge d (start links outs costs).buckets.length with hd | hd
  · rw [getD_eq_getElem _ _ hd]
    simp only [start, getElem_map, getElem_range]
    exact ((mergeSort_perm _ _).nodup_iff.2 hks).filter _
  · rw [getD_eq_default _ _ hd]
    exact nodup_nil

lemma start_of_ascending (h : links.keys.Pairwise (· ≤ ·)) : start links outs costs = { start links outs costs with
      buckets := (range (start links outs costs).buckets.length).map fun d =>
        links.keys.filter ((start links outs costs).degree.get? · == some d) } := by
  have hsr : links.keys.mergeSort = links.keys := mergeSort_of_pairwise (h.imp fun hle => by simpa using hle)
  simp [start, hsr]

end Start

end Elimination

end TensorToolchain.LayoutChoice
