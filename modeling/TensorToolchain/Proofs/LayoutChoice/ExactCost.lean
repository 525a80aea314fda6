import TensorToolchain.LayoutChoice.Elimination
import TensorToolchain.Proofs.Faults

/-!
# Exact costs

On the scale of exact costs addition is associative and the order is total. A list of costs is read
as a function of the position, and a table as a function of row and column; both are zero outside.
-/

namespace TensorToolchain.LayoutChoice

open List CostScale

variable {n p i q : ℕ} {α β : Type} {f : ℕ → ℚ} {xs : List ℚ} {l : List α}

/-- Rational costs; an impossible layout costs ten thousand million. -/
def exactScale : CostScale ℚ where
  zero := 0
  add := (· + ·)
  less := fun a b => decide (a < b)
  invalid := 10000000000
  kept := id

@[simp] lemma exactScale_add (a b : ℚ) : exactScale.add a b = a + b := rfl

@[simp] lemma exactScale_zero : exactScale.zero = 0 := rfl

lemma exactScale_less {a b : ℚ} : exactScale.less a b ↔ a < b := decide_eq_true_iff

lemma exactScale_invalid_pos : 0 < exactScale.invalid := by norm_num [exactScale]

lemma exactScale_least : exactScale.least = min := by
  funext a b
  rw [least]
  rcases lt_or_ge b a with h | h
  · rw [if_pos (exactScale_less.2 h), min_eq_right h.le]
  · rw [if_neg fun hls => not_lt.2 h (exactScale_less.1 hls), min_eq_left h]

/-! ### Least costs -/

lemma le_foldl_min {l : List ℚ} {d x : ℚ} : x ≤ l.foldl min d ↔ x ≤ d ∧ ∀ y ∈ l, x ≤ y := by
  induction l generalizing d with
  | nil => simp
  | cons a l ih => rw [foldl_cons, ih, le_min_iff, forall_mem_cons, and_assoc]

lemma foldl_min_eq_or_mem (l : List ℚ) (d : ℚ) : l.foldl min d = d ∨ l.foldl min d ∈ l := by
  induction l generalizing d with
  | nil => exact .inl rfl
  | cons a l ih =>
    rw [foldl_cons]
    rcases ih _ with h | h
    · rcases min_choice d a with hmin | hmin
      · exact .inl (h.trans hmin)
      · exact .inr (by rw [h, hmin]; exact mem_cons_self)
    · exact .inr (mem_cons_of_mem a h)

/-- The least of so many costs, but at most the cost of an impossible layout. -/
def cappedLeast (n : ℕ) (f : ℕ → ℚ) : ℚ := ((List.range n).map f).foldl min exactScale.invalid

lemma le_cappedLeast {x : ℚ} : x ≤ cappedLeast n f ↔ x ≤ exactScale.invalid ∧ ∀ p < n, x ≤ f p := by
  rw [cappedLeast, le_foldl_min, forall_mem_map]
  simp only [mem_range]

lemma cappedLeast_le (f : ℕ → ℚ) (hp : p < n) : cappedLeast n f ≤ f p := (le_cappedLeast.1 le_rfl).2 p hp

lemma cappedLeast_nonneg (h : ∀ p < n, 0 ≤ f p) : 0 ≤ cappedLeast n f := le_cappedLeast.2 ⟨exactScale_invalid_pos.le, h⟩

/-- A capped least cost below the cap is one of the costs, so no cost is less. -/
lemma cappedLeast_eq (hp : p < n) (hls : ∀ q < n, f p ≤ f q)
    (h : cappedLeast n f < exactScale.invalid) : cappedLeast n f = f p := by
  refine le_antisymm (cappedLeast_le f hp) ?_
  rcases foldl_min_eq_or_mem _ exactScale.invalid with hcap | hmem
  · exact absurd hcap h.ne
  · obtain ⟨q, hq, hfq⟩ := mem_map.1 hmem
    exact (hls q (mem_range.1 hq)).trans_eq hfq

lemma cappedLeast_congr {g : ℕ → ℚ} (h : ∀ p < n, f p = g p) : cappedLeast n f = cappedLeast n g := by
  rw [cappedLeast, cappedLeast, map_congr_left fun p hp => h p (mem_range.1 hp)]

lemma leastFrom_spec (ys : List ℚ) : ∀ (xs pre : List ℚ) (found : ℕ), ys = pre ++ xs → found < pre.length →
      (∀ x ∈ pre, ys.getD found 0 ≤ x) → let r := exactScale.leastFrom (ys.getD found 0) found pre.length xs
      r < ys.length ∧ ∀ x ∈ ys, ys.getD r 0 ≤ x := by
  intro xs
  induction xs with
  | nil =>
    intro pre found hys hfn hls
    rw [append_nil] at hys
    exact ⟨hys ▸ hfn, fun x hx => hls x (hys ▸ hx)⟩
  | cons x xs ih =>
    intro pre found hys hfn hls
    have hx : ys.getD pre.length 0 = x := by simp [hys]
    have hnx : ys = (pre ++ [x]) ++ xs := by simp [hys]
    have hlen : (pre ++ [x]).length = pre.length + 1 := by simp
    simp only [leastFrom]
    by_cases hle : exactScale.less x (ys.getD found 0)
    · have hlt : x < ys.getD found 0 := exactScale_less.1 hle
      simp only [hle, if_true]
      have key := ih _ pre.length hnx (by simp) (by
        intro y hy
        rw [hx]
        rcases mem_append.1 hy with hy | hy
        · exact hlt.le.trans (hls y hy)
        · exact (mem_singleton.1 hy).ge)
      rwa [hx, hlen] at key
    · have hge : ys.getD found 0 ≤ x := not_lt.1 fun h => hle (exactScale_less.2 h)
      simp only [hle]
      have key := ih _ found hnx (by omega) (by
        intro y hy
        rcases mem_append.1 hy with hy | hy
        · exact hls y hy
        · exact hge.trans_eq (mem_singleton.1 hy).symm)
      rwa [hlen] at key

/-- The position of the least cost is one of the list, and no item of the list is less. -/
lemma leastIndex?_eq_some (h : xs ≠ []) : ∃ p < xs.length, exactScale.leastIndex? xs = some p ∧
      ∀ q < xs.length, xs.getD p 0 ≤ xs.getD q 0 := by
  obtain ⟨x, rest, rfl⟩ := exists_cons_of_ne_nil h
  obtain ⟨hlt, hls⟩ := leastFrom_spec _ rest [x] 0 rfl (by simp) (by simp)
  refine ⟨_, hlt, rfl, fun q hq => hls _ ?_⟩
  rw [getD_eq_getElem _ _ hq]
  exact getElem_mem hq

lemma leastOf?_eq_some (h : xs ≠ []) : ∃ x ∈ xs, exactScale.leastOf? xs = some x ∧ ∀ y ∈ xs, x ≤ y := by
  obtain ⟨x, rest, rfl⟩ := exists_cons_of_ne_nil h
  refine ⟨rest.foldl min x, ?_, by rw [leastOf?, exactScale_least], fun y hy => ?_⟩
  · rcases foldl_min_eq_or_mem rest x with hx | hx
    · rw [hx]
      exact mem_cons_self
    · exact mem_cons_of_mem x hx
  · obtain ⟨hfst, hr⟩ := le_foldl_min.1 (le_refl (rest.foldl min x))
    rcases mem_cons.1 hy with rfl | hy
    · exact hfst
    · exact hr y hy

/-! ### Lists of costs -/

lemma getD_set (xs : List α) (i j : ℕ) (x d : α) :
    (xs.set i x).getD j d = if j = i ∧ i < xs.length then x else xs.getD j d := by
  rw [getD_eq_getElem?_getD, getElem?_set, getD_eq_getElem?_getD]
  by_cases hj : i = j
  · subst hj
    by_cases hi : i < xs.length
    · simp [hi]
    · simp [hi]
  · rw [if_neg hj, if_neg (hj ·.1.symm)]

lemma getElem?_eq_some_getD {xs : List α} (d : α) (h : i < xs.length) : xs[i]? = some (xs.getD i d) := by
  rw [getElem?_eq_getElem h, getD_eq_getElem xs d h]

lemma addAt_eq_ok (d : ℚ) (h : i < xs.length) : exactScale.addAt xs i d = .ok (xs.set i (xs.getD i 0 + d)) := by
  rw [addAt, getElem?_eq_some_getD 0 h]
  rfl

lemma getD_set_add (j : ℕ) (d : ℚ) (h : i < xs.length) :
    (xs.set i (xs.getD i 0 + d)).getD j 0 = xs.getD j 0 + if j = i then d else 0 := by
  rw [getD_set]
  by_cases hj : j = i
  · rw [if_pos ⟨hj, h⟩, if_pos hj, hj]
  · rw [if_neg (hj ·.1), if_neg hj, add_zero]

lemma map_zipIdx_eq (xs : List α) (d : α) (f : α → ℕ → β) :
    (xs.zipIdx.map fun p => f p.1 p.2) = (List.range xs.length).map fun k => f (xs.getD k d) k := by
  refine ext_getElem (by simp) fun k hk _ => ?_
  have hk : k < xs.length := by simpa using hk
  simp [getElem?_eq_getElem hk]

lemma getD_concat (xs : List ℚ) (x : ℚ) (p : ℕ) :
    (xs ++ [x]).getD p 0 = xs.getD p 0 + if p = xs.length then x else 0 := by
  rcases lt_trichotomy p xs.length with h | h | h
  · rw [getD_append _ _ _ _ h, if_neg h.ne, add_zero]
  · subst h
    simp
  · rw [getD_eq_default _ _ (by simp; omega), getD_eq_default _ _ h.le, if_neg h.ne', add_zero]

lemma eq_length_of_zipIdx_eq {seen rest : List (α × ℕ)} {a : α}
    (h : l.zipIdx = seen ++ (a, q) :: rest) : q = seen.length ∧ a ∈ l ∧ q < l.length := by
  have hlen : seen.length < l.length := by
    have := congrArg length h
    simp at this
    omega
  have hit : l.zipIdx[seen.length]? = some (a, q) := by rw [h]; simp
  rw [getElem?_zipIdx, getElem?_eq_getElem hlen] at hit
  simp only [Option.map_some, Option.some.injEq, Prod.mk.injEq, zero_add] at hit
  exact ⟨hit.2.symm, hit.1 ▸ getElem_mem hlen, hit.2 ▸ hlen⟩

/-- Steps over numbered items answer if each of them answers and hands on what the next one
needs. -/
lemma foldlM_zipIdx_eq_ok {f : β → α × ℕ → Except Fault β} {b : β} (P : List α → β → Prop) (hst : P [] b)
    (hstp : ∀ seen a c, a ∈ l → seen.length < l.length → P seen c →
      ∃ d, f c (a, seen.length) = .ok d ∧ P (seen ++ [a]) d) : ∃ d, l.zipIdx.foldlM f b = .ok d ∧ P l d := by
  obtain ⟨d, hd, hP⟩ := foldlM_eq_ok (fun seen c => P (seen.map Prod.fst) c) hst (by
    rintro seen ⟨a, q⟩ rest c hsp hc
    obtain ⟨hq, ha, hlt⟩ := eq_length_of_zipIdx_eq hsp
    rw [← length_map (f := Prod.fst)] at hq
    subst hq
    rw [map_append]
    exact hstp _ a c ha hlt hc)
  exact ⟨d, hd, zipIdx_map_fst 0 l ▸ hP⟩

lemma getD_nonneg (h : ∀ x ∈ xs, 0 ≤ x) (p : ℕ) : 0 ≤ xs.getD p 0 := by
  rcases lt_or_ge p xs.length with hp | hp
  · rw [getD_eq_getElem _ _ hp]
    exact h _ (getElem_mem hp)
  · rw [getD_eq_default _ _ hp]

/-! ### Tables of costs -/

namespace CostTable

def entry (t : CostTable ℚ) (p q : ℕ) : ℚ := (t.getD p []).getD q 0

def Shaped {γ : Type} (t : CostTable γ) (rows columns : ℕ) : Prop := t.length = rows ∧ ∀ row ∈ t, row.length = columns

instance {γ : Type} (t : CostTable γ) (rows columns : ℕ) : Decidable (t.Shaped rows columns) :=
  inferInstanceAs (Decidable (_ ∧ ∀ row ∈ t, row.length = columns))

variable {t : CostTable ℚ} {m : ℕ}

lemma Shaped.length_getD (h : t.Shaped m n) (hp : p < m) : (t.getD p []).length = n := by
  rw [← h.1] at hp
  rw [getD_eq_getElem t [] hp]
  exact h.2 _ (getElem_mem hp)

lemma Shaped.getElem?_eq (h : t.Shaped m n) (hp : p < m) : t[p]? = some (t.getD p []) :=
  getElem?_eq_some_getD [] (h.1.symm ▸ hp)

lemma entry_of_length_le (q : ℕ) (hp : t.length ≤ p) : t.entry p q = 0 := by
  rw [entry, getD_eq_default t [] hp]
  rfl

lemma Shaped.entry_of_le (h : t.Shaped m n) (hpq : m ≤ p ∨ n ≤ q) : t.entry p q = 0 := by
  rcases lt_or_ge p m with hp | hp
  · exact getD_eq_default _ _ ((h.length_getD hp).trans_le (hpq.resolve_left (not_le.2 hp)))
  · exact entry_of_length_le q (h.1.trans_le hp)

lemma entry_concat (t : CostTable ℚ) (row : List ℚ) (p q : ℕ) :
    CostTable.entry (t ++ [row]) p q = t.entry p q + if p = t.length then row.getD q 0 else 0 := by
  rcases lt_trichotomy p t.length with h | h | h
  · rw [entry, getD_append _ _ _ _ h, if_neg h.ne, add_zero, entry]
  · rw [entry_of_length_le q h.ge, entry, h]
    simp
  · rw [entry_of_length_le q (by simp; omega), entry_of_length_le q h.le, if_neg h.ne', add_zero]

lemma transposed_eq_ok (h : t.Shaped m n) (hm : 0 < m) :
    ∃ u, t.transposed = .ok u ∧ Shaped u n m ∧ ∀ p q, CostTable.entry u q p = t.entry p q := by
  obtain ⟨first, rest, rfl⟩ := exists_cons_of_length_pos (h.1 ▸ hm)
  have hfst : first.length = n := h.2 first mem_cons_self
  have hall : ((first :: rest).all fun row => decide (row.length ≤ first.length)) = true := by
    simp only [all_eq_true, decide_eq_true_eq]
    intro row hrow
    rw [h.2 row hrow, hfst]
  have hcl : ∀ j < n, ((first :: rest).filterMap (·[j]?)) = (first :: rest).map fun row => row.getD j 0 := by
    intro j hj
    rw [← filterMap_eq_map]
    refine filterMap_congr fun row hrow => ?_
    have hrow : j < row.length := (h.2 row hrow).symm ▸ hj
    rw [Function.comp_apply, getElem?_eq_getElem hrow, getD_eq_getElem row 0 hrow]
  refine ⟨(range n).map fun j => (first :: rest).map (·.getD j 0), ?_, ?_, ?_⟩
  · rw [transposed, head?_cons, orFail_some, ok_bind, hall, demand_true, hfst,
      map_congr_left fun j hj => hcl j (mem_range.1 hj)]
    rfl
  · exact ⟨by simp, by simpa using fun _ _ => h.1⟩
  · intro p q
    rcases lt_or_ge q n with hq | hq
    · have hrow : entry ((range n).map fun j =>
          (first :: rest).map (·.getD j 0)) q p =
          ((first :: rest).map (·.getD q 0)).getD p 0 := by
        simp [entry, hq]
      rcases lt_or_ge p (first :: rest).length with hp | hp
      · rw [hrow, entry, getD_eq_getElem _ _ (by simpa using hp), getElem_map, getD_eq_getElem _ _ hp]
      · rw [hrow, entry_of_length_le q hp, getD_eq_default _ _ (by simpa using hp)]
    · rw [h.entry_of_le (.inr hq)]
      exact entry_of_length_le p (by simpa using hq)

lemma addEntry_eq_ok (h : t.Shaped m n) {j : ℕ} (d : ℚ) (hi : i < m) (hj : j < n) :
    ∃ u, exactScale.addEntry t i j d = .ok u ∧ Shaped u m n ∧
      ∀ p q, CostTable.entry u p q = t.entry p q + if p = i ∧ q = j then d else 0 := by
  have hi' : i < t.length := h.1.symm ▸ hi
  have hlen : (t.getD i []).length = n := h.length_getD hi
  refine ⟨t.set i ((t.getD i []).set j ((t.getD i []).getD j 0 + d)), ?_, ⟨?_, ?_⟩, ?_⟩
  · rw [addEntry, h.getElem?_eq hi, orFail_some, ok_bind, addAt_eq_ok d (hlen.symm ▸ hj)]
    rfl
  · rw [length_set, h.1]
  · intro row hmem
    rcases mem_or_eq_of_mem_set hmem with hmem | rfl
    · exact h.2 row hmem
    · rw [length_set, hlen]
  · intro p q
    rw [entry, getD_set]
    by_cases hp : p = i
    · rw [if_pos ⟨hp, hi'⟩, getD_set_add q d (hlen.symm ▸ hj), hp, entry]
      simp
    · rw [if_neg (hp ·.1), if_neg (hp ·.1), add_zero, entry]

lemma tie_shaped (n : ℕ) : Shaped (exactScale.tie n) n n := by
  refine ⟨by simp [tie], fun row hrow => ?_⟩
  obtain ⟨p, -, rfl⟩ := mem_map.1 hrow
  simp

lemma entry_tie (hp : p < n) (hq : q < n) :
    CostTable.entry (exactScale.tie n) p q = if p = q then 0 else exactScale.invalid := by
  simp [entry, tie, hp, hq]

lemma entry_nonneg (h : ∀ row ∈ t, ∀ x ∈ row, 0 ≤ x) (p q : ℕ) : 0 ≤ t.entry p q := by
  rw [entry]
  rcases lt_or_ge p t.length with hp | hp
  · rw [getD_eq_getElem _ _ hp]
    exact getD_nonneg (h _ (getElem_mem hp)) q
  · rw [getD_eq_default _ _ hp]
    exact getD_nonneg (fun _ hx => absurd hx not_mem_nil) q

lemma nonneg_of_entry (h : ∀ p q, 0 ≤ t.entry p q) : ∀ row ∈ t, ∀ x ∈ row, 0 ≤ x := by
  intro row hrow x hx
  obtain ⟨p, hp, rfl⟩ := mem_iff_getElem.1 hrow
  obtain ⟨q, hq, rfl⟩ := mem_iff_getElem.1 hx
  have hen := h p q
  rwa [entry, getD_eq_getElem _ _ hp, getD_eq_getElem _ _ hq] at hen

end CostTable

end TensorToolchain.LayoutChoice
