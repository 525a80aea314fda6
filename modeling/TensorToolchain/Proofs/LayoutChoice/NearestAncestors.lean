import TensorToolchain.LayoutChoice.Elimination
import TensorToolchain.Proofs.Keyed

/-!
# Nearest ancestors

What is remembered of the nearest ancestors of a node is the ends of the paths up from it. So the
links before pruning hold, for every anchor that is no boundary node, its nearest ancestors, and
each of these is a boundary node or has links itself.
-/

namespace TensorToolchain.LayoutChoice

open List Keyed Nat

variable {fuel : ℕ} {memo : Memo} {xs : List ℕ}

lemma mem_addNew {x y : ℕ} : y ∈ addNew xs x ↔ y ∈ xs ∨ y = x := by
  rw [addNew]
  split_ifs with h
  · have hx : x ∈ xs := contains_iff_mem.1 h
    exact ⟨.inl, fun hy => hy.elim id (· ▸ hx)⟩
  · rw [mem_append, mem_singleton]

lemma mem_foldl_addNew {ys : List ℕ} {y : ℕ} : y ∈ ys.foldl addNew xs ↔ y ∈ xs ∨ y ∈ ys := by
  induction ys generalizing xs with
  | nil => simp
  | cons z ys ih => rw [foldl_cons, ih, mem_addNew, mem_cons, or_assoc]

namespace Graph

/-- What going up from a node finds, at most so many steps up. -/
def reach (g : Graph) : ℕ → ℕ → List ℕ
  | 0, _ => []
  | fuel + 1, i =>
    if g.isBoundary i then [i]
    else (g.node i).inputs.foldl (fun found k =>
      if g.isAnchor k then found ++ [k] else (g.reach fuel k).foldl addNew found) []

def nearestOf (g : Graph) (i : ℕ) : List ℕ := (g.ancestors {} i).1

variable {g : Graph} {i k : ℕ}

lemma ordered_iff : g.Ordered ↔ ∀ i < g.nodes.length, ∀ k ∈ (g.node i).inputs, k < i := by
  refine ⟨fun h i _ => h i, fun h i k hk => ?_⟩
  by_cases hi : i < g.nodes.length
  · exact h i hi k hk
  · rw [node, getD_eq_default _ _ (Nat.le_of_not_lt hi)] at hk
    exact absurd hk not_mem_nil

instance : Decidable g.Ordered := decidable_of_iff _ ordered_iff.symm

/-- Every remembered answer is what going up finds, for a node that is no boundary node. -/
structure Remembers (g : Graph) (memo : Memo) : Prop where
  keys_nodup : memo.keys.Nodup
  found : ∀ i found, memo.get? i = some found → found = g.reach (i + 1) i
  inner : ∀ i ∈ memo.keys, g.isBoundary i = false

lemma remembers_empty (g : Graph) : g.Remembers {} := ⟨nodup_nil, nofun, nofun⟩

lemma Remembers.set (h : g.Remembers memo) (hb : g.isBoundary i = false) :
    g.Remembers (memo.set i (g.reach (i + 1) i)) := by
  refine ⟨nodup_keys_set _ _ h.keys_nodup, fun j found hj => ?_, fun j hj => ?_⟩
  · rw [get?_set] at hj
    split_ifs at hj with hji
    · rw [← Option.some.inj hj, hji]
    · exact h.found j found hj
  · rcases mem_keys_set.1 hj with rfl | hj
    · exact hb
    · exact h.inner j hj

/-- What may be remembered after asking for a node: all that was, and of the nodes up to it at least
the node itself unless it is a boundary node. -/
structure Asked (g : Graph) (i : ℕ) (memo after : Memo) : Prop where
  remembers : g.Remembers after
  old : ∀ j ∈ memo.keys, j ∈ after.keys
  new : ∀ j ∈ after.keys, j ∈ memo.keys ∨ j ≤ i
  self : g.isBoundary i = false → i ∈ after.keys

lemma nearest_succ (hfn : memo.get? i = none) (hb : g.isBoundary i = false) :
    g.nearest (fuel + 1) memo i = let r := (g.node i).inputs.foldl (fun p k =>
        if g.isAnchor k then (p.1 ++ [k], p.2)
        else ((g.nearest fuel p.2 k).1.foldl addNew p.1, (g.nearest fuel p.2 k).2)) ([], memo)
      (r.1, r.2.set i r.1) := by
  rw [nearest, hfn, hb]
  rfl

lemma lt_length_of_isAnchor (h : g.isAnchor i) : i < g.nodes.length := by
  by_contra hi
  have hnd : g.node i = {} := getD_eq_default _ _ (by omega)
  simp [isAnchor, isTarget, joins, joinsWithin, hnd] at h

lemma mem_foldl_reach (above : ℕ → List ℕ) (ks found : List ℕ) :
    k ∈ ks.foldl (fun found j => if g.isAnchor j then found ++ [j] else (above j).foldl addNew found) found ↔
    k ∈ found ∨ ∃ j ∈ ks, if g.isAnchor j then k = j else k ∈ above j := by
  induction ks generalizing found with
  | nil => simp
  | cons j ks ih =>
    rw [foldl_cons, ih, exists_mem_cons_iff, ← or_assoc]
    refine or_congr_left ?_
    split_ifs
    · rw [mem_append, mem_singleton]
    · rw [mem_foldl_addNew]

section

variable (hordered : g.Ordered)
include hordered

/-- How far one goes up does not matter from the position of the node on. -/
lemma reach_eq (i : ℕ) : ∀ {fuel}, i < fuel → g.reach fuel i = g.reach (i + 1) i := by
  induction i using Nat.strongRecOn with
  | _ i ih =>
    intro fuel hi
    obtain ⟨n, rfl⟩ := exists_eq_succ_of_ne_zero (ne_zero_of_lt hi)
    rw [reach, reach]
    split_ifs with hb
    · rfl
    · refine foldl_ext _ _ _ fun found k hk => ?_
      have hki : k < i := hordered i k hk
      rw [ih k hki (lt_of_lt_of_le hki (Nat.lt_succ_iff.1 hi)), ih k hki hki]

lemma nearest_spec (hi : i < fuel) (hme : g.Remembers memo) :
    (g.nearest fuel memo i).1 = g.reach (i + 1) i ∧ g.Asked i memo (g.nearest fuel memo i).2 := by
  induction fuel generalizing i memo with
  | zero => exact absurd hi (not_lt_zero i)
  | succ fuel ih =>
    cases hfn : memo.get? i with
    | some found =>
      rw [nearest, hfn]
      exact ⟨hme.found i found hfn, hme, fun _ h => h, fun _ h => .inl h, fun _ => mem_keys_of_get? hfn⟩
    | none =>
      cases hb : g.isBoundary i with
      | true =>
        rw [nearest, hfn, hb]
        refine ⟨?_, hme, fun _ h => h, fun _ h => .inl h, fun h => ?_⟩
        · rw [reach, if_pos hb]
          rfl
        · rw [hb] at h
          cases h
      | false =>
        rw [nearest_succ hfn hb]
        -- the answers for the inputs, one after the other, are those of going up from them
        have hfl : ∀ (ks found : List ℕ) (m : Memo), (∀ k ∈ ks, k < i) →
            g.Remembers m → (∀ j ∈ memo.keys, j ∈ m.keys) → (∀ j ∈ m.keys, j ∈ memo.keys ∨ j ≤ i) →
            ∃ m', ks.foldl (fun p k =>
              if g.isAnchor k then (p.1 ++ [k], p.2)
              else ((g.nearest fuel p.2 k).1.foldl addNew p.1, (g.nearest fuel p.2 k).2))
              (found, m) = (ks.foldl (fun found k => if g.isAnchor k then found ++ [k]
                else (g.reach i k).foldl addNew found) found, m') ∧
              g.Remembers m' ∧ (∀ j ∈ memo.keys, j ∈ m'.keys) ∧ ∀ j ∈ m'.keys, j ∈ memo.keys ∨ j ≤ i := by
          intro ks
          induction ks with
          | nil => exact fun found m _ hm hold hnew => ⟨m, rfl, hm, hold, hnew⟩
          | cons k ks ihks =>
            intro found m hks hm hold hnew
            have hk : k < i := hks k mem_cons_self
            have hks := fun j hj => hks j (mem_cons_of_mem k hj)
            rw [foldl_cons, foldl_cons]
            by_cases han : g.isAnchor k
            · rw [if_pos han, if_pos han]
              exact ihks _ m hks hm hold hnew
            · obtain ⟨hfst, has⟩ := ih (by omega : k < fuel) hm
              rw [if_neg han, if_neg han, hfst, reach_eq hordered k hk]
              refine ihks _ _ hks has.remembers (fun j hj => has.old j (hold j hj)) ?_
              intro j hj
              rcases has.new j hj with hj | hj
              · exact hnew j hj
              · exact .inr (by omega)
        obtain ⟨m', hr, hm', hold, hnew⟩ := hfl (g.node i).inputs [] memo (hordered i) hme
          (fun _ h => h) fun _ h => .inl h
        have hrc : (g.node i).inputs.foldl (fun found k => if g.isAnchor k then found ++ [k]
            else (g.reach i k).foldl addNew found) [] = g.reach (i + 1) i := by
          rw [reach, hb]
          rfl
        rw [hr, hrc]
        refine ⟨rfl, hm'.set hb, fun j hj => ?_, fun j hj => ?_, fun _ => ?_⟩
        · exact mem_keys_set.2 (.inr (hold j hj))
        · rcases mem_keys_set.1 hj with rfl | hj
          · exact .inr le_rfl
          · exact hnew j hj
        · exact mem_keys_set.2 (.inl rfl)

/-- Asking for every node that is no boundary node and no tuple remembers the answers for them. -/
lemma allAncestors_spec : g.Remembers g.allAncestors ∧ ∀ i < g.nodes.length,
    g.isBoundary i = false → g.isSkipped i = false → i ∈ g.allAncestors.keys := by
  suffices hfl : ∀ n, n ≤ g.nodes.length → g.Remembers ((range n).foldl (fun memo i =>
      if g.isBoundary i || g.isSkipped i then memo else (g.ancestors memo i).2) {}) ∧
      ∀ i < n, g.isBoundary i = false → g.isSkipped i = false → i ∈ ((range n).foldl (fun memo i =>
        if g.isBoundary i || g.isSkipped i then memo else (g.ancestors memo i).2) {}).keys
    from hfl g.nodes.length le_rfl
  intro n
  induction n with
  | zero => exact fun _ => ⟨g.remembers_empty, fun i hi => absurd hi (not_lt_zero i)⟩
  | succ n ih =>
    intro hn
    obtain ⟨hremembers, hkeys⟩ := ih (by omega)
    rw [range_succ, foldl_append, foldl_cons, foldl_nil]
    cases hasked : g.isBoundary n || g.isSkipped n with
    | true =>
      refine ⟨hremembers, fun i hi hboundary hskipped => ?_⟩
      rcases Nat.lt_succ_iff_lt_or_eq.1 hi with hlt | rfl
      · exact hkeys i hlt hboundary hskipped
      · simp [hboundary, hskipped] at hasked
    | false =>
      obtain ⟨-, hafter⟩ := nearest_spec hordered (by omega : n < g.nodes.length + 1) hremembers
      refine ⟨hafter.remembers, fun i hi hboundary hskipped => ?_⟩
      rcases Nat.lt_succ_iff_lt_or_eq.1 hi with hlt | rfl
      · exact hafter.old i (hkeys i hlt hboundary hskipped)
      · exact hafter.self hboundary

lemma nearestOf_eq (hi : i < g.nodes.length) : g.nearestOf i = g.reach (i + 1) i :=
  (nearest_spec hordered (lt_succ_of_lt hi) g.remembers_empty).1

/-! ### Paths up -/

/-- Whether going up ends at a node: it is a boundary node or an anchor. -/
def IsEnd (g : Graph) (k : ℕ) : Prop := g.isBoundary k = true ∨ g.isAnchor k = true

/-- A node is met on a path up from another one, all nodes between the two being no ends. -/
inductive Climbs (g : Graph) : ℕ → ℕ → Prop
  | input {i k : ℕ} (hk : k ∈ (g.node i).inputs) : g.Climbs i k
  | through {i j k : ℕ} (hj : j ∈ (g.node i).inputs) (hinner : ¬ g.IsEnd j) (hk : g.Climbs j k) : g.Climbs i k

lemma Climbs.lt (h : g.Climbs i k) : k < i := by
  induction h with
  | input hk => exact hordered _ _ hk
  | through hj _ _ ih => exact lt_trans ih (hordered _ _ hj)

/-- Going up from a node that is no boundary node finds the ends of the paths up from it. -/
lemma mem_reach (hi : i < fuel) (hb : g.isBoundary i = false) : k ∈ g.reach fuel i ↔ g.IsEnd k ∧ g.Climbs i k := by
  induction fuel generalizing i with
  | zero => exact absurd hi (not_lt_zero i)
  | succ fuel ih =>
    have hst : ∀ j ∈ (g.node i).inputs, g.isBoundary j → g.reach fuel j = [j] := by
      intro j hj hbj
      have hji := hordered i j hj
      obtain ⟨n, rfl⟩ := exists_eq_succ_of_ne_zero (by omega : fuel ≠ 0)
      rw [reach, if_pos hbj]
    have hin : ∀ j ∈ (g.node i).inputs, g.isBoundary j = false →
        (k ∈ g.reach fuel j ↔ g.IsEnd k ∧ g.Climbs j k) := fun j hj hbj =>
      ih (by have := hordered i j hj; omega) hbj
    rw [reach, if_neg (by simp [hb]), mem_foldl_reach]
    simp only [not_mem_nil, false_or]
    constructor
    · rintro ⟨j, hj, hk⟩
      split_ifs at hk with han
      · exact hk ▸ ⟨.inr han, .input hj⟩
      · cases hbj : g.isBoundary j with
        | true =>
          rw [hst j hj hbj, mem_singleton] at hk
          exact hk ▸ ⟨.inl hbj, .input hj⟩
        | false =>
          obtain ⟨hend, hcl⟩ := (hin j hj hbj).1 hk
          exact ⟨hend, .through hj (by simp [IsEnd, hbj, han]) hcl⟩
    · rintro ⟨hend, hcl⟩
      cases hcl with
      | input hk =>
        refine ⟨k, hk, ?_⟩
        split_ifs with han
        · rfl
        · rw [hst k hk (hend.resolve_right han)]
          exact mem_singleton_self k
      | @through _ j _ hj hnot hcl =>
        obtain ⟨hbj, han⟩ := not_or.1 hnot
        refine ⟨j, hj, ?_⟩
        rw [if_neg han, hin j hj (by simpa using hbj)]
        exact ⟨hend, hcl⟩

/-- What is remembered after asking for some nodes one after the other. -/
def askedFor (g : Graph) (calls : List ℕ) : Memo := calls.foldl (fun memo j => (g.ancestors memo j).2) {}

lemma remembers_askedFor {calls : List ℕ} (hcl : ∀ j ∈ calls, j < g.nodes.length) : g.Remembers (g.askedFor calls) := by
  induction calls using reverseRecOn with
  | nil => exact g.remembers_empty
  | append_singleton calls j ih =>
    have hj : j < g.nodes.length := hcl j (by simp)
    rw [askedFor, foldl_append, foldl_cons, foldl_nil]
    refine (nearest_spec hordered (lt_succ_of_lt hj) (ih fun l hl => ?_)).2.remembers
    exact hcl l (mem_append_left _ hl)

end

/-- Whatever was asked before, the answer for a node that is no boundary node holds the ends of the
paths up from it and nothing else. -/
theorem ancestors_are_path_ends (hordered : g.Ordered) {calls : List ℕ}
    (hcalls : ∀ j ∈ calls, j < g.nodes.length) (hi : i < g.nodes.length)
    (hb : g.isBoundary i = false) (k : ℕ) :
    k ∈ (g.ancestors (g.askedFor calls) i).1 ↔ g.IsEnd k ∧ g.Climbs i k := by
  have hasked := remembers_askedFor hordered hcalls
  rw [ancestors, (nearest_spec hordered (Nat.lt_succ_of_lt hi) hasked).1]
  exact mem_reach hordered (Nat.lt_succ_self i) hb

/-- A shared activation below a convolution, a sum and plain data. -/
def sharedActivation : Graph where
  nodes := [{ name := some "data" }, { op := some "conv2d", inputs := [0] },
    { op := some "relu", inputs := [1] }, { op := some "tanh", inputs := [2] },
    { op := some "add", inputs := [2, 3] }, { op := some "relu", inputs := [4, 3] },
    { op := some "concatenate", inputs := [5, 0, 2] }]
  targets := ["conv2d"]
  inputNames := ["data"]

theorem sharedActivation_ancestors :
    (sharedActivation.ancestors (sharedActivation.askedFor [6, 3, 0]) 6).1 = [5, 0, 1] ∧
    ∀ k, k ∈ (sharedActivation.ancestors (sharedActivation.askedFor [6, 3, 0]) 6).1 ↔
      sharedActivation.IsEnd k ∧ sharedActivation.Climbs 6 k :=
  ⟨by decide +kernel, ancestors_are_path_ends (by decide +kernel) (by decide) (by decide) (by decide +kernel)⟩

/-- Inputs come before the nodes that list them, and no tuple joins several of them. -/
structure Regular (g : Graph) : Prop where
  ordered : g.Ordered
  joins_eq : ∀ i < g.nodes.length, g.isSkipped i = true → g.joins i = false

/-- No anchor is passed over. -/
lemma Regular.isSkipped_eq (h : g.Regular) (hanchor : g.isAnchor i) : g.isSkipped i = false := by
  by_contra hskipped
  rw [Bool.not_eq_false] at hskipped
  have hjoins := h.joins_eq i (lt_length_of_isAnchor hanchor) hskipped
  simp_all [isAnchor, isTarget, isSkipped]

section

variable (hregular : g.Regular)
include hregular

lemma get?_anchorLinks (i : ℕ) : g.anchorLinks.get? i =
    if g.isAnchor i = true ∧ g.isBoundary i = false then some (g.nearestOf i) else none := by
  obtain ⟨hrm, hks⟩ := allAncestors_spec hregular.ordered
  rw [anchorLinks, get?_filter hrm.keys_nodup fun i _ => g.isAnchor i]
  by_cases hi : g.isAnchor i
  · have hlt := lt_length_of_isAnchor hi
    cases hb : g.isBoundary i with
    | true =>
      have hno : g.allAncestors.get? i = none := by
        refine get?_eq_none.2 fun hmem => ?_
        rw [hrm.inner i hmem] at hb
        cases hb
      rw [hno, if_neg (by simp)]
      rfl
    | false =>
      obtain ⟨found, hfn⟩ := exists_get? (hks i hlt hb (hregular.isSkipped_eq hi))
      rw [hfn, if_pos ⟨hi, rfl⟩, Option.filter_some, if_pos hi, nearestOf_eq hregular.ordered hlt, hrm.found i found hfn]
  · rw [if_neg (hi ·.1)]
    cases g.allAncestors.get? i with
    | none => rfl
    | some found => rw [Option.filter_some, if_neg hi]

lemma nodup_keys_anchorLinks : g.anchorLinks.keys.Nodup :=
  (allAncestors_spec hregular.ordered).1.keys_nodup.sublist (filter_sublist.map Prod.fst)

lemma mem_keys_anchorLinks : i ∈ g.anchorLinks.keys ↔ g.isAnchor i ∧ g.isBoundary i = false := by
  rw [Keyed.mem_keys, get?_anchorLinks hregular]
  split_ifs with h
  · simpa using h
  · simpa using h

lemma of_mem_nearestOf (hi : i ∈ g.anchorLinks.keys) (hk : k ∈ g.nearestOf i) :
    k < i ∧ (g.isBoundary k ∨ k ∈ g.anchorLinks.keys) := by
  obtain ⟨han, hb⟩ := (mem_keys_anchorLinks hregular).1 hi
  rw [nearestOf_eq hregular.ordered (lt_length_of_isAnchor han)] at hk
  obtain ⟨hkn, hcl⟩ := (mem_reach hregular.ordered (lt_succ_self i) hb).1 hk
  refine ⟨hcl.lt hregular.ordered, ?_⟩
  cases hbk : g.isBoundary k with
  | true => exact .inl rfl
  | false => exact .inr ((mem_keys_anchorLinks hregular).2 ⟨by simpa [IsEnd, hbk] using hkn, hbk⟩)

end

end Graph

end TensorToolchain.LayoutChoice
