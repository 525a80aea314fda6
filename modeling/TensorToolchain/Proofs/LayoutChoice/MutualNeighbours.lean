import TensorToolchain.Proofs.LayoutChoice.AnchorGraph

/-!
# Runs that end show mutual neighbours

A node may list a neighbour more often than the neighbour lists it back; a boundary node that is
itself a key does, since it is taken out of the inputs of the keys that it leads to, but they stay
among its neighbours. Such a node cannot be taken out while the neighbour is left, and once
it was taken out, the node cannot be given a choice before the neighbour, which is given its choice
later. So no run ends that fixes no choice.
-/

namespace TensorToolchain.LayoutChoice

open List Option Except

namespace Elimination

variable {γ : Type} {c : CostScale γ} {s t u : Elimination γ} {i k : ℕ}

/-! ### What a retirement that answers has done -/

lemma mem_bucket_of_unfile {d : ℕ} (h : s.unfile d i = .ok t) : i ∈ s.buckets.getD d [] := by
  obtain ⟨bucket, hbc, h⟩ := bind_eq_ok.1 h
  obtain ⟨_, hmem, -⟩ := bind_eq_ok.1 h
  rw [getD_eq_getElem?_getD, orFail_eq_ok.1 hbc]
  exact contains_iff_mem.1 (of_demand_eq_ok hmem)

section

variable (h : Filed s.buckets s.degree)
include h

lemma Filed.of_refile_eq_ok (hrf : s.refile k = .ok t) : Refiles s t [k] := by
  obtain ⟨around, har, before, hbef, hnow⟩ := bind₂_eq_ok.1 hrf
  have har : s.adjacent.get? k = some around := orFail_eq_ok.1 har
  have hbef : s.degree.get? k = some before := orFail_eq_ok.1 hbef
  split_ifs at hnow with hsm
  · obtain rfl := ok.inj hnow
    refine ⟨⟨_, _, rfl⟩, h, rfl, fun j => .rfl, fun j => ?_⟩
    split_ifs with hj
    · rw [mem_singleton.1 hj, hbef, beq_iff_eq.1 hsm, har, getD_some]
    · rfl
  · obtain ⟨s', hun, bucket, hbc, -⟩ := bind₂_eq_ok.1 hnow
    have hmem := mem_bucket_of_unfile hun
    have hk : k ∈ s.live := mem_flatten_iff.2 ⟨before, hmem⟩
    obtain ⟨buckets, hun', hlen, -⟩ := h.unfile_eq_ok hk hbef
    rw [hun, ok.injEq] at hun'
    have hlt : around.length < s.buckets.length := by
      obtain ⟨hlt, -⟩ := List.getElem?_eq_some_iff.1 (orFail_eq_ok.1 hbc)
      rw [hun'] at hlt
      exact hlen ▸ hlt
    obtain ⟨t', hrf', ht'⟩ := h.refile_eq_ok hk har hlt
    rw [hrf, ok.injEq] at hrf'
    exact hrf' ▸ ht'

lemma Filed.of_foldlM_refile_eq_ok {nodes : List ℕ} (hfl : nodes.foldlM refile s = .ok t) : Refiles s t nodes :=
  of_foldlM_eq_ok (fun seen t => Refiles s t seen) hfl (.refl h)
    fun _ _ _ _ _ _ ht hrf => ht.concat (ht.filed.of_refile_eq_ok hrf)

/-- A node that was retired was left, and left the lists of its neighbours as often as it names
them. -/
lemma Filed.of_retire_eq_ok (hsl : i ∉ s.around i) (hrt : s.retire i = .ok t) : ∃ adjacent buckets degree,
      t = { s with adjacent, buckets, degree, stack := s.stack ++ [i] } ∧
      Links.unlink s.adjacent i (s.around i) = .ok adjacent ∧ i ∈ s.live ∧ Filed buckets degree ∧
      buckets.length = s.buckets.length ∧ (∀ j, j ∈ buckets.flatten ↔ j ∈ s.live ∧ j ≠ i) ∧
      ∀ j, degree.get? j = if j ∈ s.around i then some ((adjacent.get? j).getD []).length else s.degree.get? j := by
  obtain ⟨u, hrm, nodes, hnd, hrt⟩ := bind₂_eq_ok.1 hrt
  obtain ⟨v, hfl, hrt⟩ := bind_eq_ok.1 hrt
  obtain ⟨around, har, w, hun, hrm⟩ := bind₂_eq_ok.1 hrm
  obtain ⟨adjacent, hunl, hrm⟩ := bind_eq_ok.1 hrm
  have har : s.around i = around := by rw [Elimination.around, orFail_eq_ok.1 har, getD_some]
  have hmem := mem_bucket_of_unfile hun
  have hi : i ∈ s.live := mem_flatten_iff.2 ⟨_, hmem⟩
  obtain ⟨buckets, hun', hlen, hbc⟩ := h.unfile_eq_ok hi (h.degree_eq _ i hmem)
  rw [hun, ok.injEq] at hun'
  subst hun'
  obtain rfl := ok.inj hrm
  have hnd : around = nodes := by
    have hsm := (Links.unlinked_of_eq_ok hunl).other i (har ▸ hsl)
    have hag : adjacent.get? i = some nodes := orFail_eq_ok.1 hnd
    rw [← har, Elimination.around, ← hsm, hag, getD_some]
  have hlv : ∀ j, j ∈ buckets.flatten ↔ j ∈ s.live ∧ j ≠ i := mem_flatten_of_filter hbc
  have hv := of_foldlM_refile_eq_ok (s := { s with adjacent, buckets }) (h.of_filter hbc) hfl
  obtain ⟨buckets', degree', rfl⟩ := hv.eq
  obtain rfl := ok.inj hrt
  refine ⟨adjacent, buckets', degree', rfl, har ▸ hunl, hi, hv.filed,
    hv.length.trans hlen, fun j => (hv.mem_live j).trans (hlv j), fun j => ?_⟩
  rw [har, hnd]
  exact hv.degree j

end

/-! ### What a step that answers has done -/

/-- How often an edge is added between any two nodes: at most once, and only between neighbours of a
node that have none. -/
structure NewEdges (s : Elimination γ) (i : ℕ) (e : ℕ → ℕ → ℕ) : Prop where
  symm : ∀ j a, e j a = e a j
  irrefl : ∀ j, e j j = 0
  le_one : ∀ j a, e j a ≤ 1
  mem_around : ∀ j a, e j a ≠ 0 → a ∈ s.around i
  fresh : ∀ j a, e j a ≠ 0 → a ∉ s.around j ∨ j ∉ s.around a

/-- A state before a node is retired: as another one but for costs and tables, and perhaps with one
edge more between two neighbours of the node. -/
structure Adds (s u : Elimination γ) (i : ℕ) : Prop where
  buckets_eq : u.buckets = s.buckets
  degree_eq : u.degree = s.degree
  stack_eq : u.stack = s.stack
  chosen_eq : u.chosen = s.chosen
  optimal_eq : u.optimal = s.optimal
  other : ∀ j ∉ s.around i, u.around j = s.around j
  length_le : ∀ j, (u.around j).length ≤ (s.around j).length + 1
  edges : ∃ e, NewEdges s i e ∧ ∀ j a, (u.around j).count a = (s.around j).count a + e j a

/-- A state differs from another in costs and tables only. -/
def Reprices (s t : Elimination γ) : Prop := ∃ costs tables, t = { s with costs, tables }

lemma Reprices.adds (h : Reprices s u) (i : ℕ) : Adds s u i := by
  obtain ⟨costs, tables, rfl⟩ := h
  exact ⟨rfl, rfl, rfl, rfl, rfl, fun _ _ => rfl, fun _ => Nat.le_succ _,
    fun _ _ => 0, ⟨fun _ _ => rfl, fun _ => rfl, fun _ _ => zero_le_one, by simp, by simp⟩, fun _ _ => rfl⟩

lemma Reprices.trans (h : Reprices s t) (h' : Reprices t u) : Reprices s u := by
  obtain ⟨costs, tables, rfl⟩ := h
  obtain ⟨costs', tables', rfl⟩ := h'
  exact ⟨costs', tables', rfl⟩

lemma reprices_of_addCost {choice : ℕ} {d : γ} (h : s.addCost c k choice d = .ok t) : Reprices s t := by
  obtain ⟨_, -, _, -, h⟩ := bind₂_eq_ok.1 h
  exact ⟨_, s.tables, (ok.inj h).symm⟩

lemma reprices_of_addToTable {row column : ℕ} {d : γ} (h : s.addToTable c i k row column d = .ok t) : Reprices s t := by
  obtain ⟨_, -, _, -, h⟩ := bind₂_eq_ok.1 h
  exact ⟨s.costs, _, (ok.inj h).symm⟩

lemma reprices_of_foldlM {α : Type} {f : Elimination γ → α → Except Fault (Elimination γ)}
    {l : List α} (hst : ∀ u a v, f u a = .ok v → Reprices u v) (h : l.foldlM f s = .ok t) : Reprices s t := by
  refine of_foldlM_eq_ok (fun _ u => Reprices s u) h ⟨s.costs, s.tables, rfl⟩ ?_
  intro _ a _ u v _ hu hv
  exact hu.trans (hst u a v hv)

lemma of_reduceOne_eq_ok (h : s.reduceOne c i = .ok t) : ∃ u, Adds s u i ∧ u.retire i = .ok t := by
  obtain ⟨_, -, k, -, h⟩ := bind₂_eq_ok.1 h
  obtain ⟨table, -, u, hfl, hrt⟩ := bind₂_eq_ok.1 h
  refine ⟨u, (reprices_of_foldlM ?_ hfl).adds i, hrt⟩
  rintro v ⟨row, choice⟩ w hst
  obtain ⟨_, -, _, -, hst⟩ := bind₂_eq_ok.1 hst
  exact reprices_of_addCost hst

lemma adds_of_addEdge {x y : ℕ} {table : CostTable γ} (har : s.around i = [x, y])
    (hne : x ≠ y) (hnew : x ∉ s.around y) (h : s.addEdge x y table = .ok u) : Adds s u i := by
  obtain ⟨mirror, -, aroundX, hx, h⟩ := bind₂_eq_ok.1 h
  obtain ⟨aroundY, hy, h⟩ := bind_eq_ok.1 h
  have hx : s.adjacent.get? x = some aroundX := orFail_eq_ok.1 hx
  have hy : (s.adjacent.set x (aroundX ++ [y])).get? y = some aroundY := orFail_eq_ok.1 hy
  rw [Keyed.get?_set_of_ne _ _ (symm hne)] at hy
  obtain rfl : s.withEdge x y table mirror = u := by
    rw [← ok.inj h, withEdge, around, around, hx, hy]
    simp [setTable]
  refine ⟨rfl, rfl, rfl, rfl, rfl, fun j hj => ?_, fun j => ?_,
    fun j a => if j = y ∧ a = x ∨ j = x ∧ a = y then 1 else 0,
    ⟨fun j a => ?_, fun j => if_neg (by omega), fun j a => ?_, fun j a he => ?_, fun j a he => ?_⟩, fun j a => ?_⟩
  · rw [har] at hj
    have hjx : j ≠ x := fun e => hj (by simp [e])
    have hjy : j ≠ y := fun e => hj (by simp [e])
    rw [around_withEdge, if_neg hjy, if_neg hjx]
  · rw [around_withEdge]
    split_ifs <;> simp [*]
  · split_ifs <;> omega
  · split_ifs <;> omega
  · obtain ⟨-, rfl⟩ | ⟨-, rfl⟩ := of_not_not fun hnot => he (if_neg hnot)
    · simp [har]
    · simp [har]
  · obtain ⟨rfl, rfl⟩ | ⟨rfl, rfl⟩ := of_not_not fun hnot => he (if_neg hnot)
    · exact .inl hnew
    · exact .inr hnew
  · rw [around_withEdge]
    by_cases hjy : j = y
    · simp [hjy, symm hne, count_singleton, eq_comm (a := x)]
    · by_cases hjx : j = x
      · simp [hjx, hne, count_singleton, eq_comm (a := y)]
      · simp [hjy, hjx]

lemma of_reduceTwo_eq_ok (h : s.reduceTwo c i = .ok t) : ∃ u, Adds s u i ∧ u.retire i = .ok t := by
  obtain ⟨nodes, hnd, h⟩ := bind_eq_ok.1 h
  have har : s.around i = nodes := by rw [around, orFail_eq_ok.1 hnd, getD_some]
  rcases nodes with _ | ⟨x, _ | ⟨y, _ | ⟨z, rest⟩⟩⟩
  · cases h
  · cases h
  · obtain ⟨tx, -, ty, -, h⟩ := bind₂_eq_ok.1 h
    obtain ⟨own, -, delta, -, h⟩ := bind₂_eq_ok.1 h
    obtain ⟨others, hothers, h⟩ := bind_eq_ok.1 h
    split_ifs at h with hsm hmem
    · obtain ⟨u, hfl, hrt⟩ := bind_eq_ok.1 h
      refine ⟨u, (reprices_of_foldlM ?_ hfl).adds i, hrt⟩
      rintro v ⟨row, choice⟩ w hst
      obtain ⟨_, -, hst⟩ := bind_eq_ok.1 hst
      exact reprices_of_addCost hst
    · obtain ⟨u, hfl, hrt⟩ := bind_eq_ok.1 h
      refine ⟨u, (reprices_of_foldlM ?_ hfl).adds i, hrt⟩
      rintro v ⟨row, choice⟩ w hrow
      refine reprices_of_foldlM ?_ hrow
      rintro v ⟨d, q⟩ w hst
      obtain ⟨v', hv, hst⟩ := bind_eq_ok.1 hst
      exact (reprices_of_addToTable hv).trans (reprices_of_addToTable hst)
    · obtain ⟨u, hed, hrt⟩ := bind_eq_ok.1 h
      have hnew : x ∉ s.around y := by
        rw [around, orFail_eq_ok.1 hothers, getD_some]
        exact fun hx => hmem (contains_iff_mem.2 hx)
      exact ⟨u, adds_of_addEdge har (fun e => hsm (beq_iff_eq.2 e)) hnew hed, hrt⟩
  · cases h

/-- What holds of any graph throughout an elimination: the nodes that are left are filed under the
numbers of their neighbours, no node lists itself, and no node is retired twice. -/
structure Tidy (s : Elimination γ) : Prop where
  filed : Filed s.buckets s.degree
  degree_eq : ∀ j ∈ s.live, s.degree.get? j = some (s.around j).length
  room : ∀ j ∈ s.live, (s.around j).length + 2 ≤ s.buckets.length
  irrefl : ∀ j, j ∉ s.around j
  retired : ∀ j ∈ s.stack, j ∉ s.live
  stack_nodup : s.stack.Nodup

/-- What a step that fixes no choice does to the lists of neighbours: a node leaves every list as
often as it names its owner, and apart from that two nodes may list each other once more. -/
structure Takes (s t : Elimination γ) (i : ℕ) : Prop where
  mem : i ∈ s.live
  stack_eq : t.stack = s.stack ++ [i]
  mem_live : ∀ j, j ∈ t.live ↔ j ∈ s.live ∧ j ≠ i
  chosen_eq : t.chosen = s.chosen
  optimal_eq : t.optimal = s.optimal
  count_self : ∀ j, (t.around j).count i + (s.around i).count j = (s.around j).count i
  count_of_ne : ∃ e, NewEdges s i e ∧ ∀ j a, a ≠ i → (t.around j).count a = (s.around j).count a + e j a
  length_le : ∀ j, (t.around j).length ≤ (s.around j).length

lemma Adds.irrefl (h : Adds s u i) (hs : s.Tidy) (j : ℕ) : j ∉ u.around j := by
  obtain ⟨e, hnew, hed⟩ := h.edges
  rw [← count_eq_zero, hed, hnew.irrefl, count_eq_zero.2 (hs.irrefl j)]

/-- A node that is left is retired for the first time. -/
lemma Tidy.nodup_stack_concat (h : s.Tidy) (hi : i ∈ s.live) : (s.stack ++ [i]).Nodup := by
  rw [nodup_append]
  refine ⟨h.stack_nodup, nodup_singleton i, ?_⟩
  rintro j hj k hk rfl
  exact h.retired j hj (mem_singleton.1 hk ▸ hi)

lemma Tidy.of_retire_eq_ok (h : s.Tidy) (had : Adds s u i) (hrt : u.retire i = .ok t) : t.Tidy ∧ Takes s t i := by
  obtain ⟨e, hnew, hed⟩ := had.edges
  have hir : ∀ j, j ∉ u.around j := had.irrefl h
  have hfl : Filed u.buckets u.degree := by
    rw [had.buckets_eq, had.degree_eq]
    exact h.filed
  have har : u.around i = s.around i := had.other i (h.irrefl i)
  obtain ⟨adjacent, buckets, degree, rfl, hunl, hi, hfl', hln, hlv, hdg⟩ := hfl.of_retire_eq_ok (hir i) hrt
  have hun := Links.unlinked_of_eq_ok hunl
  have hul : u.live = s.live := congrArg flatten had.buckets_eq
  rw [hul] at hi
  set t : Elimination γ := { u with adjacent, buckets, degree, stack := u.stack ++ [i] } with ht
  have htl : ∀ j, j ∈ t.live ↔ j ∈ s.live ∧ j ≠ i := fun j => by
    rw [← hul]
    exact hlv j
  have hkp : ∀ j ∉ s.around i, t.around j = s.around j := by
    intro j hj
    rw [← had.other j hj]
    exact congrArg (getD · []) (hun.other j (har ▸ hj))
  have hcnt : ∀ j a, (t.around j).count a + (if a = i then (u.around i).count j else 0) =
      (u.around j).count a := hun.times_add
  have hsh : ∀ j, (t.around j).length ≤ (s.around j).length := by
    intro j
    by_cases hj : j ∈ s.around i
    · have hone : 0 < (u.around i).count j := count_pos_iff.2 (har ▸ hj)
      have hlen : (t.around j).length + (u.around i).count j = (u.around j).length := by
        have hlen := (hun.perm j).length_eq
        rwa [length_append, length_replicate] at hlen
      have hle := had.length_le j
      omega
    · rw [hkp j hj]
  refine ⟨⟨hfl', fun j hj => ?_, fun j hj => ?_, fun j => ?_, fun j hj => ?_, ?_⟩, hi, ?_,
    htl, had.chosen_eq, had.optimal_eq, fun j => ?_, ⟨e, hnew, fun j a ha => ?_⟩, hsh⟩
  · refine (hdg j).trans ?_
    rw [har]
    split_ifs with hmem
    · rfl
    · rw [had.degree_eq, h.degree_eq j ((htl j).1 hj).1, hkp j hmem]
  · have hrm := h.room j ((htl j).1 hj).1
    have hle := hsh j
    have hbc : t.buckets.length = s.buckets.length := by rw [hln, had.buckets_eq]
    omega
  · have hj := hcnt j j
    rw [count_eq_zero.2 (hir j), Nat.add_eq_zero_iff] at hj
    exact count_eq_zero.1 hj.1
  · rw [htl]
    rintro ⟨hlv, hne⟩
    have hj : j ∈ s.stack ++ [i] := had.stack_eq ▸ hj
    rcases mem_append.1 hj with hj | hj
    · exact h.retired j hj hlv
    · exact hne (mem_singleton.1 hj)
  · show (u.stack ++ [i]).Nodup
    rw [had.stack_eq]
    exact h.nodup_stack_concat hi
  · show u.stack ++ [i] = s.stack ++ [i]
    rw [had.stack_eq]
  · have hj := hcnt j i
    rw [if_pos rfl, hed, hed, hnew.symm i j] at hj
    omega
  · have hj := hcnt j a
    rwa [if_neg ha, hed] at hj

lemma of_fixLocally_eq_ok (h : s.fixLocally c i = .ok t) :
    ∃ chosen u, Adds { s with chosen, optimal := false } u i ∧ u.retire i = .ok t := by
  obtain ⟨own, -, ⟨least, best⟩, -, h⟩ := bind₂_eq_ok.1 h
  match best with
  | none => cases h
  | some choice =>
    obtain ⟨_, -, u, hfl, hrt⟩ := bind₂_eq_ok.1 h
    refine ⟨s.chosen.set i choice, u, (reprices_of_foldlM ?_ hfl).adds i, hrt⟩
    intro v k w hrow
    obtain ⟨_, -, _, -, hrow⟩ := bind₂_eq_ok.1 hrow
    refine reprices_of_foldlM ?_ hrow
    rintro v ⟨d, q⟩ w hst
    exact reprices_of_addCost hst

/-- A step retires a node, perhaps after it fixed a choice. -/
lemma of_step_eq_ok (h : s.step c = .ok (some t)) :
    ∃ s' i u, (s' = s ∨ ∃ chosen, s' = { s with chosen, optimal := false }) ∧ Adds s' u i ∧ u.retire i = .ok t := by
  obtain ⟨single, -, h⟩ := bind_eq_ok.1 h
  simp only at h
  split at h
  · obtain ⟨t', ht, h⟩ := bind_eq_ok.1 h
    obtain rfl := some.inj (ok.inj h)
    obtain ⟨u, hu⟩ := of_reduceOne_eq_ok ht
    exact ⟨s, _, u, .inl rfl, hu⟩
  · obtain ⟨t', ht, h⟩ := bind_eq_ok.1 h
    obtain rfl := some.inj (ok.inj h)
    obtain ⟨u, hu⟩ := of_reduceTwo_eq_ok ht
    exact ⟨s, _, u, .inl rfl, hu⟩
  · obtain ⟨t', ht, h⟩ := bind_eq_ok.1 h
    obtain rfl := some.inj (ok.inj h)
    obtain ⟨chosen, u, hu⟩ := of_fixLocally_eq_ok ht
    exact ⟨_, _, u, .inr ⟨chosen, rfl⟩, hu⟩
  · cases h

/-! ### A node that is not listed back -/

/-- A node lists another more often than that lists it while both are left, or lists it at all after
that was retired before it. -/
def Skew (s : Elimination γ) (w o : ℕ) : Prop :=
  (w ∉ s.stack ∧ o ∉ s.stack ∧ (s.around o).count w < (s.around w).count o) ∨
    (o ∈ s.around w ∧ ∃ before after, s.stack = before ++ after ∧ o ∈ before ∧ w ∉ before)

variable {w o : ℕ} {costs : List γ}

lemma Skew.takes (h : s.Skew w o) (hs : s.Tidy) (ht : Takes s t i) : t.Skew w o := by
  obtain ⟨e, hnew, hcnt⟩ := ht.count_of_ne
  rcases h with ⟨hw, ho, hlt⟩ | ⟨hmem, before, after, hst, ho, hw⟩
  · have hne : w ≠ o := fun hwo => absurd hlt (by rw [hwo]; exact lt_irrefl _)
    have hsl := ht.count_self
    by_cases hwi : w = i
    · -- it would have to leave a list in which it does not stand as often
      have hlf := hsl o
      rw [hwi] at hlt
      omega
    · by_cases hoi : o = i
      · have hlf := hsl w
        rw [hoi] at hlt hne ⊢
        refine .inr ⟨count_pos_iff.1 (by omega), s.stack ++ [i], [], ?_, by simp, ?_⟩
        · rw [append_nil, ht.stack_eq]
        · simp [hw, hne]
      · refine .inl ⟨?_, ?_, ?_⟩
        · simp [ht.stack_eq, hw, hwi]
        · simp [ht.stack_eq, ho, hoi]
        · rw [hcnt o w hwi, hcnt w o hoi, hnew.symm o w]
          omega
  · have hoi : o ≠ i := by
      rintro rfl
      exact hs.retired o (hst ▸ mem_append_left after ho) ht.mem
    refine .inr ⟨?_, before, after ++ [i], ?_, ho, hw⟩
    · rw [← count_pos_iff, hcnt w o hoi]
      have hpos := count_pos_iff.2 hmem
      omega
    · rw [ht.stack_eq, hst, append_assoc]

lemma Takes.length_live (h : Takes s t i) (hs : s.Tidy) (ht : t.Tidy) : t.live.length + 1 = s.live.length :=
  length_of_mem_iff hs.filed.nodup_flatten ht.filed.nodup_flatten h.mem h.mem_live

/-! ### Simple graphs

A step keeps a graph simple whatever the costs and the tables are.
-/

/-- The nodes that are left form a simple graph: of two neighbours each lists the other, and
once. -/
structure Simple (s : Elimination γ) : Prop extends s.Tidy where
  mem_live : ∀ j ∈ s.live, ∀ a ∈ s.around j, a ∈ s.live
  symm : ∀ j ∈ s.live, ∀ a ∈ s.live, (s.around j).count a = (s.around a).count j
  le_one : ∀ j ∈ s.live, ∀ a, (s.around j).count a ≤ 1

lemma Simple.takes (h : s.Simple) (htakes : Takes s t i) (htidy : t.Tidy) : t.Simple := by
  obtain ⟨e, hnew, hcount⟩ := htakes.count_of_ne
  -- the node that is taken out is listed no more
  have hgone : ∀ j ∈ t.live, (t.around j).count i = 0 := by
    intro j hj
    have hself := htakes.count_self j
    rw [h.symm i htakes.mem j ((htakes.mem_live j).1 hj).1] at hself
    omega
  have hfresh : ∀ j ∈ s.live, ∀ a ∈ s.live, e j a ≠ 0 → (s.around j).count a = 0 := by
    intro j hj a ha he
    rcases hnew.fresh j a he with hno | hno
    · exact count_eq_zero.2 hno
    · rw [h.symm j hj a ha, count_eq_zero.2 hno]
  have hlive : ∀ j ∈ t.live, ∀ a ∈ t.around j, a ∈ t.live := by
    intro j hj a ha
    have hai : a ≠ i := fun hai => count_pos_iff.2 ha |>.ne' (hai ▸ hgone j hj)
    refine (htakes.mem_live a).2 ⟨?_, hai⟩
    rw [← count_pos_iff, hcount j a hai] at ha
    by_cases he : e j a = 0
    · exact h.mem_live j ((htakes.mem_live j).1 hj).1 a (count_pos_iff.1 (by omega))
    · exact h.mem_live i htakes.mem a (hnew.mem_around j a he)
  refine { htidy with mem_live := hlive, symm := fun j hj a ha => ?_, le_one := fun j hj a => ?_ }
  · obtain ⟨hj, hji⟩ := (htakes.mem_live j).1 hj
    obtain ⟨ha, hai⟩ := (htakes.mem_live a).1 ha
    rw [hcount j a hai, hcount a j hji, h.symm j hj a ha, hnew.symm]
  · by_cases ha : a ∈ t.around j
    · obtain ⟨ha, hai⟩ := (htakes.mem_live a).1 (hlive j hj a ha)
      have hj := ((htakes.mem_live j).1 hj).1
      rw [hcount j a hai]
      by_cases he : e j a = 0
      · rw [he]
        exact h.le_one j hj a
      · rw [hfresh j hj a ha he]
        exact (zero_add _).trans_le (hnew.le_one j a)
    · exact (count_eq_zero.2 ha).trans_le zero_le_one

lemma Simple.step (h : s.Simple) (hstep : s.step c = .ok (some t)) : t.Simple ∧ ∃ i, i ∈ s.live ∧
    t.stack = s.stack ++ [i] ∧ (∀ j, j ∈ t.live ↔ j ∈ s.live ∧ j ≠ i) ∧
      (∀ j, (t.around j).length ≤ (s.around j).length) ∧ t.live.length + 1 = s.live.length := by
  obtain ⟨s', i, u, hs', had, hretire⟩ := of_step_eq_ok hstep
  have hsame : s'.Simple ∧ s'.live = s.live ∧ s'.stack = s.stack ∧ s'.around = s.around := by
    rcases hs' with rfl | ⟨chosen, rfl⟩
    · exact ⟨h, rfl, rfl, rfl⟩
    · exact ⟨{ h with }, rfl, rfl, rfl⟩
  obtain ⟨hsimple, hlive, hstack, haround⟩ := hsame
  obtain ⟨htidy, htakes⟩ := hsimple.toTidy.of_retire_eq_ok had hretire
  rw [← hlive, ← hstack, ← haround]
  exact ⟨hsimple.takes htakes htidy, i, htakes.mem, htakes.stack_eq, htakes.mem_live, htakes.length_le,
    htakes.length_live hsimple.toTidy htidy⟩

/-- States one step apart, for costs of any kind. -/
def Follows (c : CostScale γ) (s t : Elimination γ) : Prop := s.step c = .ok (some t)

/-- What a run keeps: the graph stays simple, no node comes or goes or gets more neighbours. -/
lemma Simple.run (h : s.Simple) (hrun : Relation.ReflTransGen (Follows c) s t) :
    t.Simple ∧ (∀ j, t.Known j ↔ s.Known j) ∧ ∀ j, (t.around j).length ≤ (s.around j).length := by
  induction hrun with
  | refl => exact ⟨h, fun j => .rfl, fun j => le_rfl⟩
  | tail _ hstep ih =>
    obtain ⟨hsimple, hknown, hle⟩ := ih
    obtain ⟨hnext, i, hi, hstack, hlive, hle', -⟩ := hsimple.step hstep
    refine ⟨hnext, fun j => ?_, fun j => (hle' j).trans (hle j)⟩
    rw [← hknown, Known, Known, hlive, hstack, mem_append, mem_singleton]
    by_cases hj : j = i
    · simp [hj, hi]
    · simp [hj]

/-- With as many steps as there are nodes left, a run ends in a state without a step or in a
refusal. -/
lemma Simple.forward_cases (h : s.Simple) {n : ℕ} (hn : s.live.length < n) :
    ∃ t, Relation.ReflTransGen (Follows c) s t ∧ (t.step c = .ok none ∧ s.forward c n = .ok t ∨
      ∃ f, t.step c = .error f ∧ s.forward c n = .error f) := by
  induction n generalizing s with
  | zero => exact absurd hn (Nat.not_lt_zero _)
  | succ n ih =>
    rw [forward]
    cases hstep : s.step c with
    | error f => exact ⟨s, .refl, .inr ⟨f, hstep, rfl⟩⟩
    | ok next =>
      cases next with
      | none => exact ⟨s, .refl, .inl ⟨hstep, rfl⟩⟩
      | some u =>
        obtain ⟨hsimple, -, -, -, -, -, hlength⟩ := h.step hstep
        obtain ⟨t, hrun, hend⟩ := ih hsimple (by omega)
        exact ⟨t, .head hstep hrun, hend⟩

/-- A run that fixes no choice ends in a state without a step, in which the same nodes are skew. -/
lemma Tidy.of_forward_eq_ok {n : ℕ} (h : s.Tidy) (hn : s.live.length < n)
    (hfr : s.forward c n = .ok t) (hopt : t.optimal) : s.optimal ∧ t.Tidy ∧ t.step c = .ok none ∧ t.chosen = s.chosen ∧
      (∀ j, s.Known j → t.Known j) ∧ ∀ w o, s.Skew w o → t.Skew w o := by
  induction n generalizing s with
  | zero => exact absurd hn (Nat.not_lt_zero _)
  | succ n ih =>
    obtain ⟨next, hst, hr⟩ := bind_eq_ok.1 hfr
    match next with
    | none =>
      obtain rfl := ok.inj hr
      exact ⟨hopt, h, hst, rfl, fun j hj => hj, fun w o hsk => hsk⟩
    | some next =>
      obtain ⟨s', i, u, rfl | ⟨chosen, rfl⟩, had, hrt⟩ := of_step_eq_ok hst
      · obtain ⟨hnx, htk⟩ := h.of_retire_eq_ok had hrt
        have hlen := htk.length_live h hnx
        obtain ⟨hopt, ht, hend, hch, hnd, hsk⟩ := ih hnx (by omega) hr
        refine ⟨htk.optimal_eq ▸ hopt, ht, hend, hch.trans htk.chosen_eq,
          fun j hj => hnd j ?_, fun w o hwo => hsk w o (hwo.takes h htk)⟩
        rw [Known, htk.mem_live, htk.stack_eq, mem_append, mem_singleton]
        by_cases hji : j = i
        · exact .inr (.inr hji)
        · exact hj.imp (fun hj => ⟨hj, hji⟩) .inl
      · have h' : { s with chosen, optimal := false }.Tidy := { h with }
        obtain ⟨hnx, htk⟩ := h'.of_retire_eq_ok had hrt
        have hlen : _ = s.live.length := htk.length_live h' hnx
        exact absurd (htk.optimal_eq ▸ (ih hnx (by omega) hr).1) (by simp)

lemma Tidy.around_eq_nil (h : s.Tidy) (hend : s.step c = .ok none) {j : ℕ} (hj : j ∈ s.live) : s.around j = [] := by
  obtain ⟨single, hsn, hend⟩ := bind_eq_ok.1 hend
  have hone : s.buckets.getD 1 [] = single := by rw [getD_eq_getElem?_getD, orFail_eq_ok.1 hsn, getD_some]
  simp only at hend
  split at hend
  · obtain ⟨_, -, hend⟩ := bind_eq_ok.1 hend
    cases hend
  · obtain ⟨_, -, hend⟩ := bind_eq_ok.1 hend
    cases hend
  · obtain ⟨_, -, hend⟩ := bind_eq_ok.1 hend
    cases hend
  · rename_i hdb hcr
    obtain ⟨d, hd⟩ := mem_flatten_iff.1 hj
    have hdg := h.filed.degree_eq d j hd
    rw [h.degree_eq j hj, some.injEq] at hdg
    have hrm := h.room j hj
    have hz : d = 0 := eq_zero_of_idle hone hdb hcr hd (by omega)
    exact length_eq_zero_iff.1 (hdg.trans hz)

lemma mem_chosen_of_settledCosts (h : s.settledCosts c i = .ok costs) : ∀ k ∈ s.around i, k ∈ s.chosen.keys := by
  obtain ⟨nodes, hnd, own, -, h⟩ := bind₂_eq_ok.1 h
  rw [around, orFail_eq_ok.1 hnd]
  refine of_foldlM_eq_ok (fun seen _ => ∀ k ∈ seen, k ∈ s.chosen.keys) h (by simp) ?_
  intro seen k _ _ _ _ hsn hst
  obtain ⟨choice, hch, -⟩ := bind_eq_ok.1 hst
  intro j hj
  rcases mem_append.1 hj with hj | hj
  · exact hsn j hj
  · rw [mem_singleton.1 hj]
    exact Keyed.mem_keys_of_get? (orFail_eq_ok.1 hch)

lemma of_chooseLeast_eq_ok (h : s.chooseLeast c i costs = .ok t) :
    ∃ best, t = { s with chosen := s.chosen.set i best } := by
  obtain ⟨best, -, h⟩ := bind_eq_ok.1 h
  exact ⟨best, (ok.inj h).symm⟩

lemma optimal_of_backward (h : s.backward c = .ok t) : t.optimal = s.optimal := by
  obtain ⟨u, hlf, hr⟩ := bind_eq_ok.1 h
  have hu : u.optimal = s.optimal := by
    refine of_foldlM_eq_ok (fun _ u => u.optimal = s.optimal) hlf rfl ?_
    intro _ i _ v v' _ hv hst
    obtain ⟨costs, -, hst⟩ := bind_eq_ok.1 hst
    obtain ⟨best, rfl⟩ := of_chooseLeast_eq_ok hst
    exact hv
  refine of_foldlM_eq_ok (fun _ v => v.optimal = s.optimal) hr hu ?_
  intro _ i _ v v' _ hv hst
  split_ifs at hst
  · exact ok.inj hst ▸ hv
  · obtain ⟨costs, -, hst⟩ := bind_eq_ok.1 hst
    obtain ⟨best, rfl⟩ := of_chooseLeast_eq_ok hst
    exact hv

/-- The nodes that are left are given their choices first. -/
lemma of_foldlM_chooseLeast_eq_ok (hch : t.chosen = {})
    (h : (t.buckets.headD []).foldlM (fun (s : Elimination γ) i => do
      s.chooseLeast c i (← s.costsOf i)) t = .ok u) :
    ∃ chosen, u = { t with chosen } ∧ ∀ j ∈ chosen.keys, j ∈ t.live := by
  refine of_foldlM_eq_ok (fun _ u => ∃ chosen, u = { t with chosen } ∧
    ∀ j ∈ chosen.keys, j ∈ t.live) h ⟨t.chosen, rfl, ?_⟩ ?_
  · rw [hch]
    exact fun j hj => absurd hj not_mem_nil
  · rintro seen i rest _ v hsp ⟨chosen, rfl, hks⟩ hst
    obtain ⟨costs, -, hst⟩ := bind_eq_ok.1 hst
    obtain ⟨best, rfl⟩ := of_chooseLeast_eq_ok hst
    refine ⟨_, rfl, fun j hj => ?_⟩
    rcases Keyed.mem_keys_set.1 hj with rfl | hj
    · refine mem_flatten_iff.2 ⟨0, ?_⟩
      rw [← headD_eq_getD, hsp]
      exact mem_append_right seen mem_cons_self
    · exact hks j hj

lemma mem_of_append_eq_append_cons {before after left right : List ℕ}
    (h : before ++ after = left ++ w :: right) (hw : w ∉ before) (ho : o ∈ before) : o ∈ left := by
  rcases append_eq_append_iff.1 h with ⟨rest, hlf, -⟩ | ⟨rest, hbef, hr⟩
  · exact hlf ▸ mem_append_left rest ho
  · cases rest with
    | nil =>
      rw [append_nil] at hbef
      exact hbef ▸ ho
    | cons a rest =>
      obtain ⟨rfl, -⟩ := cons.inj hr
      exact absurd (hbef ▸ mem_append_right _ mem_cons_self) hw

/-- A node that lists one that was retired before it cannot be given a choice. -/
lemma Tidy.backward_ne_ok (h : t.Tidy) (hch : t.chosen = {}) (hw : w ∈ t.stack)
    (ho : o ∈ t.around w) {before after : List ℕ} (hstc : t.stack = before ++ after)
    (hbef : o ∈ before) (haft : w ∉ before) (r : Elimination γ) : t.backward c ≠ .ok r := by
  intro hbc
  obtain ⟨u, hlf, hr⟩ := bind_eq_ok.1 hbc
  have hos : o ∈ t.stack := hstc ▸ mem_append_left after hbef
  obtain ⟨chosen, rfl, hks⟩ := of_foldlM_chooseLeast_eq_ok hch hlf
  have hfl : w ∉ t.stack.reverse := by
    refine (of_foldlM_eq_ok (fun seen u => w ∉ seen ∧ ∃ chosen,
      u = { t with chosen } ∧ ∀ j ∈ chosen.keys, j ∈ t.live ∨ j ∈ seen) hr
      ⟨not_mem_nil, chosen, rfl, fun j hj => .inl (hks j hj)⟩ ?_).1
    rintro seen i rest _ v hsp ⟨hsn, chosen, rfl, hks⟩ hst
    have hi : i ∈ t.stack := mem_reverse.1 (hsp ▸ mem_append_right seen mem_cons_self)
    have hnew := notMem_seen (nodup_reverse.2 h.stack_nodup) hsp
    have hi' : i ∉ chosen.keys := fun hmem => (hks i hmem).elim (h.retired i hi) hnew
    split_ifs at hst with hcn
    · exact absurd (Keyed.contains_iff.1 hcn) hi'
    obtain ⟨costs, hcs, hst⟩ := bind_eq_ok.1 hst
    obtain ⟨best, rfl⟩ := of_chooseLeast_eq_ok hst
    have hwi : w ≠ i := by
      rintro rfl
      -- the other node was retired before, and so gets its choice later
      have hmem := mem_chosen_of_settledCosts hcs o ho
      rcases hks o hmem with hlv | hmem
      · exact h.retired o hos hlv
      · have hsm : before ++ after = rest.reverse ++ w :: seen.reverse := by
          rw [← hstc, ← reverse_reverse t.stack, hsp]
          simp
        have hnd := h.stack_nodup
        rw [hstc, hsm, nodup_append] at hnd
        have hor : o ∈ rest.reverse := mem_of_append_eq_append_cons hsm haft hbef
        exact hnd.2.2 o hor o (mem_cons_of_mem w (mem_reverse.2 hmem)) rfl
    refine ⟨?_, _, rfl, fun j hj => ?_⟩
    · simp [hsn, hwi]
    · rcases Keyed.mem_keys_set.1 hj with rfl | hj
      · exact .inr (by simp)
      · exact (hks j hj).imp_right (mem_append_left _)
  exact hfl (mem_reverse.2 hw)

/-- If a run ends that fixes no choice, every node lists its neighbours at most as often as they
list it. -/
lemma Tidy.count_le_of_solve {r : Elimination γ} (h : s.Tidy) (hst : s.stack = [])
    (hch : s.chosen = {}) (hsl : s.solve c = .ok r) (hopt : r.optimal)
    (hw : w ∈ s.live) (o : ℕ) : (s.around w).count o ≤ (s.around o).count w := by
  by_contra hlt
  obtain ⟨t, hfr, hbc⟩ := bind_eq_ok.1 hsl
  have htp : t.optimal := optimal_of_backward hbc ▸ hopt
  obtain ⟨-, ht, hend, htc, hnd, hsk⟩ := h.of_forward_eq_ok (Nat.lt_succ_self _) hfr htp
  have hlf : ∀ {j}, j ∈ t.around w → w ∉ t.live := by
    intro j hj hlv
    rw [ht.around_eq_nil hend hlv] at hj
    exact not_mem_nil hj
  have hkn := hnd w (.inl hw)
  rcases hsk w o (.inl ⟨by simp [hst], by simp [hst], not_le.1 hlt⟩) with
    ⟨hwt, -, hlt⟩ | ⟨hmem, before, after, hsp, hbef, haft⟩
  · have hmem : o ∈ t.around w := count_pos_iff.1 (by omega)
    exact hlf hmem (hkn.resolve_right hwt)
  · have hwt : w ∈ t.stack := hkn.resolve_left (hlf hmem)
    exact ht.backward_ne_ok (htc.trans hch) hwt hmem hsp hbef haft r hbc

end Elimination

end TensorToolchain.LayoutChoice
