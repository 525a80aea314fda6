import Mathlib
import TensorToolchain.Keyed

/-!
# Look-ups in keyed collections

What a look-up finds after a value was put under a key or all values were changed, and which keys
there are.
-/

namespace TensorToolchain.Keyed

open List

variable {κ α β : Type} [DecidableEq κ] {k j : κ} {v : α} {m n : Keyed κ α} {pairs : List (κ × α)}

lemma mem_keys : k ∈ m.keys ↔ (m.get? k).isSome := by
  simp only [keys, get?, mem_map, Option.isSome_map, find?_isSome, decide_eq_true_eq]

lemma contains_iff : m.contains k ↔ k ∈ m.keys := by simp only [keys, contains, any_eq_true, decide_eq_true_eq, mem_map]

lemma get?_eq_none : m.get? k = none ↔ k ∉ m.keys := by
  rw [mem_keys, Bool.not_eq_true, Option.isSome_eq_false_iff, Option.isNone_iff_eq_none]

lemma exists_get? (h : k ∈ m.keys) : ∃ v, m.get? k = some v := Option.isSome_iff_exists.1 (mem_keys.1 h)

lemma mem_keys_of_get? (h : m.get? k = some v) : k ∈ m.keys := by rw [mem_keys, h, Option.isSome_some]

lemma get?_map (f : κ × α → κ × β) (hf : ∀ p, (f p).1 = p.1) (m : Keyed κ α) (k : κ) :
    (⟨m.entries.map f⟩ : Keyed κ β).get? k = (m.get? k).map fun v => (f (k, v)).2 := by
  have hkey : (fun p => decide (p.1 = k)) ∘ f = fun p => decide _ := funext fun p => by rw [Function.comp_apply, hf]
  rw [get?, find?_map, hkey, get?]
  cases hp : m.entries.find? fun p => p.1 = k with
  | none => rfl
  | some p =>
    have hpk : p.1 = k := by simpa using find?_some hp
    rw [← hpk]
    rfl

lemma get?_set (m : Keyed κ α) (k j : κ) (v : α) : (m.set k v).get? j = if j = k then some v else m.get? j := by
  by_cases h : m.contains k
  · rw [set, if_pos h, get?_map _ fun p => by split_ifs with hp <;> simp [hp]]
    by_cases hj : j = k
    · have hk := mem_keys.1 (contains_iff.1 h)
      simpa [hj, Option.isSome_iff_exists] using hk
    · simp [hj]
  · have hk : m.get? k = none := get?_eq_none.2 fun hk => h (contains_iff.2 hk)
    rw [set, if_neg h, get?]
    by_cases hj : j = k
    · have hno : m.entries.find? (·.1 = k) = none := by
        simpa only [get?, Option.map_eq_none_iff] using hk
      simp [hj, hno]
    · have hkj : ¬ k = j := (hj ·.symm)
      simp [hj, hkj, get?]

@[simp] lemma get?_set_self (m : Keyed κ α) (k : κ) (v : α) : (m.set k v).get? k = some v := by
  rw [get?_set, if_pos rfl]

lemma get?_set_of_ne (m : Keyed κ α) (v : α) (h : j ≠ k) : (m.set k v).get? j = m.get? j := by rw [get?_set, if_neg h]

lemma keys_set_of_mem (v : α) (h : k ∈ m.keys) : (m.set k v).keys = m.keys := by
  rw [set, if_pos (contains_iff.2 h), keys, map_map]
  refine map_congr_left fun p _ => ?_
  by_cases hp : p.1 = k
  · rw [Function.comp_apply, if_pos hp, hp]
  · simp [if_neg hp]

lemma keys_set_of_notMem (v : α) (h : k ∉ m.keys) : (m.set k v).keys = m.keys ++ [k] := by
  rw [set, if_neg fun hk => h (contains_iff.1 hk), keys, map_append]
  rfl

lemma mem_keys_set : j ∈ (m.set k v).keys ↔ j = k ∨ j ∈ m.keys := by
  rw [mem_keys, get?_set, mem_keys]
  by_cases h : j = k
  · simp [h]
  · simp [h]

lemma nodup_keys_set (k : κ) (v : α) (h : m.keys.Nodup) : (m.set k v).keys.Nodup := by
  by_cases hk : k ∈ m.keys
  · rwa [keys_set_of_mem v hk]
  · rw [keys_set_of_notMem v hk]
    refine nodup_append.2 ⟨h, by simp, fun a ha b hb e => hk ?_⟩
    rwa [← mem_singleton.1 hb, ← e]

omit [DecidableEq κ] in
@[simp] lemma keys_mapValues (f : κ → α → β) (m : Keyed κ α) : (m.mapValues f).keys = m.keys := by
  simp [keys, mapValues]

@[simp] lemma get?_mapValues (f : κ → α → β) (m : Keyed κ α) (k : κ) : (m.mapValues f).get? k = (m.get? k).map (f k) :=
  get?_map (fun p => (p.1, f p.1 p.2)) (fun _ => rfl) m k

@[simp] lemma get?_erase (m : Keyed κ α) (k j : κ) : (m.erase k).get? j = if j = k then none else m.get? j := by
  rw [erase, get?, get?]
  by_cases hj : j = k
  · simp [hj]
  · have hne : ∀ p : κ × α, (¬ p.1 = k ∧ p.1 = j) ↔ p.1 = j := fun p => and_iff_right_of_imp (· ▸ hj)
    simp [hj, hne]

lemma mem_keys_erase : j ∈ (m.erase k).keys ↔ j ≠ k ∧ j ∈ m.keys := by
  rw [mem_keys, mem_keys]
  by_cases h : j = k
  · simp [h]
  · simp [h]

lemma nodup_keys_erase (k : κ) (h : m.keys.Nodup) : (m.erase k).keys.Nodup := h.sublist (filter_sublist.map Prod.fst)

lemma mem_of_get? (h : m.get? k = some v) : (k, v) ∈ m.entries := by
  obtain ⟨p, hp, rfl⟩ := Option.map_eq_some_iff.1 h
  have hk : p.1 = k := by simpa using find?_some hp
  rw [← hk]
  exact mem_of_find?_eq_some hp

lemma get?_of_mem (hks : m.keys.Nodup) (h : (k, v) ∈ m.entries) : m.get? k = some v := by
  obtain ⟨v', hv'⟩ := exists_get? (mem_map_of_mem h)
  have he : (k, v') = (k, v) := inj_on_of_nodup_map hks (mem_of_get? hv') h rfl
  rw [hv', (Prod.mk.inj he).2]

/-- What is kept of a collection keeps its value, if no key occurs twice. -/
lemma get?_filter (hks : m.keys.Nodup) (p : κ → α → Bool) (k : κ) :
    (⟨m.entries.filter fun e => p e.1 e.2⟩ : Keyed κ α).get? k = (m.get? k).filter (p k) := by
  have hks' : (⟨m.entries.filter fun e => p e.1 e.2⟩ : Keyed κ α).keys.Nodup :=
    hks.sublist (filter_sublist.map Prod.fst)
  cases hm : m.get? k with
  | none =>
    refine get?_eq_none.2 fun hk => get?_eq_none.1 hm ?_
    obtain ⟨e, he, rfl⟩ := mem_map.1 hk
    exact mem_map_of_mem (mem_of_mem_filter he)
  | some v =>
    have hmem := mem_of_get? hm
    rw [Option.filter_some]
    split_ifs with hp
    · exact get?_of_mem hks' (mem_filter.2 ⟨hmem, hp⟩)
    · refine get?_eq_none.2 fun hk => ?_
      obtain ⟨e, he, rfl⟩ := mem_map.1 hk
      obtain ⟨he, hpe⟩ := mem_filter.1 he
      have hv : v = e.2 := Option.some.inj (hm.symm.trans (get?_of_mem hks he))
      exact hp (hv ▸ hpe)

/-- Collections with the same keys in the same order and the same values under them are equal. -/
lemma eq_of_get? (hm : m.keys.Nodup) (hks : n.keys = m.keys) (hget : ∀ k, n.get? k = m.get? k) : n = m := by
  have hen : ∀ m : Keyed κ α, m.keys.Nodup → m.keys.filterMap (fun k => (m.get? k).map (k, ·)) = m.entries := by
    intro m hm
    rw [keys, filterMap_map]
    refine (filterMap_congr fun e he => ?_).trans filterMap_some
    rw [Function.comp_apply, get?_of_mem hm he, Option.map_some]
  have hn : n.entries = m.entries := by
    rw [← hen m hm, ← hen n (hks ▸ hm), hks]
    exact filterMap_congr fun k _ => by rw [hget]
  exact congrArg mk hn

lemma mem_keys_merge : k ∈ (m.merge n).keys ↔ k ∈ m.keys ∨ k ∈ n.keys := by
  obtain ⟨entries⟩ := n
  induction entries generalizing m with
  | nil => simp [merge, keys]
  | cons p entries ih =>
    have hcn : m.merge ⟨p :: entries⟩ = (m.set p.1 p.2).merge ⟨entries⟩ := rfl
    have hks : (⟨p :: entries⟩ : Keyed κ α).keys = p.1 :: (⟨entries⟩ : Keyed κ α).keys := rfl
    rw [hcn, ih, mem_keys_set, hks, mem_cons]
    tauto

lemma ofList_concat (pairs : List (κ × α)) (p : κ × α) : ofList (pairs ++ [p]) = (ofList pairs).set p.1 p.2 := by
  rw [ofList, foldl_append]
  rfl

lemma mem_of_get?_ofList (h : (ofList pairs).get? k = some v) : (k, v) ∈ pairs := by
  induction pairs using reverseRecOn with
  | nil => cases h
  | append_singleton pairs p ih =>
    rw [ofList_concat, get?_set] at h
    rw [mem_append, mem_singleton]
    split_ifs at h with hk
    · obtain rfl := Option.some.inj h
      exact .inr (by rw [hk])
    · exact .inl (ih h)

lemma mem_keys_ofList : k ∈ (ofList pairs).keys ↔ k ∈ pairs.map Prod.fst := by
  induction pairs using reverseRecOn with
  | nil => rfl
  | append_singleton pairs p ih =>
    rw [ofList_concat, mem_keys_set, ih, map_append, or_comm]
    simp

lemma ofList_of_nodup (h : (pairs.map Prod.fst).Nodup) : ofList pairs = ⟨pairs⟩ := by
  induction pairs using reverseRecOn with
  | nil => rfl
  | append_singleton pairs p ih =>
    rw [map_append, nodup_append] at h
    rw [ofList_concat, ih h.1, set, if_neg]
    simp only [contains, any_eq_true, not_exists, not_and]
    intro q hq hqp
    exact h.2.2 _ (mem_map_of_mem hq) _ (by simp) (of_decide_eq_true hqp)

/-- What is filed under a key is the value that the pairs give it, if they give it only one. -/
lemma get?_ofList_of_mem (hmem : (k, v) ∈ pairs) (hsm : ∀ v', (k, v') ∈ pairs → v' = v) :
    (ofList pairs).get? k = some v := by
  obtain ⟨v', hv'⟩ := exists_get? (mem_keys_ofList.2 (mem_map_of_mem hmem))
  rw [hv', hsm v' (mem_of_get?_ofList hv')]

lemma get?_foldl_set (names : List κ) (f : κ → α) (m : Keyed κ α) (k : κ) :
    (names.foldl (fun m k => m.set k (f k)) m).get? k = if k ∈ names then some (f k) else m.get? k := by
  induction names generalizing m with
  | nil => rfl
  | cons j names ih =>
    rw [foldl_cons, ih, get?_set]
    by_cases hk : k = j
    · simp [hk]
    · simp [hk]

lemma get?_ofList_map (names : List κ) (f : κ → α) (k : κ) :
    (ofList (names.map fun k => (k, f k))).get? k = if k ∈ names then some (f k) else none := by
  rw [ofList, foldl_map, get?_foldl_set]
  rfl

lemma lookup_cons_filter [BEq β] [LawfulBEq β] (pairs : List (β × α)) (key other : β) (value : α) :
    ((key, value) :: pairs.filter (·.1 != key)).lookup other =
      if other == key then some value else pairs.lookup other := by
  rw [lookup_cons]
  cases hkey : other == key with
  | true => rfl
  | false =>
    change (pairs.filter (·.1 != key)).lookup other = pairs.lookup other
    induction pairs with
    | nil => rfl
    | cons e pairs ih =>
      by_cases he : e.1 = key
      · have hne : (other == e.1) = false := by rw [he, hkey]
        rw [filter_cons_of_neg (by simpa using he), ih, lookup_cons, hne]
      · rw [filter_cons_of_pos (by simpa using he), lookup_cons, ih, lookup_cons]

end TensorToolchain.Keyed
