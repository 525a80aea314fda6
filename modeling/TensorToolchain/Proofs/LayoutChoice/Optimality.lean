import TensorToolchain.Proofs.LayoutChoice.EliminationRun
import TensorToolchain.Proofs.LayoutChoice.MutualNeighbours

/-!
# The least total

If the least total is that of a possible layout, the choices made have it whenever no choice had to
be fixed on the way. This is carried back along the run: if the choices have the least total after a
step, and the node that it took out has the choice that costs least beside them, they had it before.
Once a choice was fixed, the run can be refused.
-/

namespace TensorToolchain.LayoutChoice.Elimination

open List Keyed Option Relation

/-! ### Choices after the elimination

The nodes that are left get their least choices, and then the retired nodes in reverse order get
those that cost least beside the choices of their neighbours, all of which are made by then.
-/

variable {t r : Elimination ℚ} {size : ℕ → ℕ} {i k : ℕ} {done : List ℕ} {xs : List ℚ}

/-- The assignment agrees with the choices that were made. -/
def Extends (c : ℕ → ℕ) (chosen : Keyed ℕ ℕ) : Prop := ∀ j p, chosen.get? j = some p → c j = p

/-- Choices are made at some nodes: each is the least beside the choices at the neighbours, unless
it was fixed before. -/
structure Settling (size : ℕ → ℕ) (t r : Elimination ℚ) (done : List ℕ) : Prop where
  eq : ∃ chosen, r = { t with chosen }
  nodup : r.chosen.keys.Nodup
  mem_keys : ∀ j, j ∈ r.chosen.keys ↔ j ∈ done ∨ j ∈ t.chosen.keys
  lt : ∀ j p, r.chosen.get? j = some p → p < size j
  least : ∀ j ∈ done, j ∉ t.chosen.keys → ∀ c, Extends c r.chosen → ∀ q < size j, t.beside j (c j) c ≤ t.beside j q c

namespace Settling

/-- A node gets the least of some costs, which are those beside the choices made. -/
lemma chooseLeast (h : Settling size t r done) (hdn : i ∉ done) (hch : i ∉ t.chosen.keys) (hpos : 0 < size i)
    (hlen : xs.length = size i) (hxs : ∀ c, Extends c r.chosen → ∀ p < size i, xs.getD p 0 = t.beside i p c) :
    ∃ r', r.chooseLeast exactScale i xs = .ok r' ∧ Settling size t r' (done ++ [i]) := by
  have hi : i ∉ r.chosen.keys := fun hc => ((h.mem_keys i).1 hc).elim hdn hch
  obtain ⟨p, hp, hidx, hls⟩ := leastIndex?_eq_some (length_pos_iff.1 (hlen ▸ hpos))
  rw [hlen] at hp hls
  refine ⟨{ r with chosen := r.chosen.set i p }, ?_, ?_, nodup_keys_set i p h.nodup,
    fun j => ?_, fun j q hj => ?_, fun j hj hjc c hc q hq => ?_⟩
  · rw [Elimination.chooseLeast, hidx]
    rfl
  · obtain ⟨chosen, rfl⟩ := h.eq
    exact ⟨_, rfl⟩
  · rw [mem_keys_set, h.mem_keys, mem_append, mem_singleton]
    tauto
  · rw [get?_set] at hj
    split_ifs at hj with hji
    · exact hji ▸ some.inj hj ▸ hp
    · exact h.lt j q hj
  · have hext : Extends c r.chosen := by
      intro l m hl
      have hli : l ≠ i := fun e => hi (e ▸ mem_keys_of_get? hl)
      exact hc l m (by rw [get?_set_of_ne _ _ hli, hl])
    rcases mem_snoc.1 hj with hj | rfl
    · exact h.least j hj hjc c hext q hq
    · rw [hc j p (get?_set_self ..), ← hxs c hext p hp, ← hxs c hext q hq]
      exact hls q hq

lemma skip (h : Settling size t r done) (hi : i ∈ t.chosen.keys) : Settling size t r (done ++ [i]) := by
  refine ⟨h.eq, h.nodup, fun j => ?_, h.lt, fun j hj hjc => ?_⟩
  · rw [h.mem_keys, mem_append, mem_singleton]
    constructor
    · tauto
    · rintro ((hj | rfl) | hj)
      · exact .inl hj
      · exact .inr hi
      · exact .inr hj
  · rcases mem_append.1 hj with hj | hj
    · exact h.least j hj hjc
    · exact absurd hi (mem_singleton.1 hj ▸ hjc)

end Settling

lemma mapM_addEdge_eq_ok (hsn : t.Sound size) (hr : ∃ chosen, r = { t with chosen })
    (hi : t.Known i) (hk : k ∈ t.around i) {m : ℕ} (hm : m < size k)
    (hlen : xs.length = size i) : ∃ ys, (xs.zipIdx.mapM fun (cost, p) => do
        let row ← orFail .badIndex (← r.table i k)[p]?
        return exactScale.add cost (← orFail .badIndex row[m]?)) = .ok ys ∧
      ys.length = size i ∧ ∀ p < size i, ys.getD p 0 = xs.getD p 0 + t.link i k p m := by
  have htb : r.table i k = .ok (t.tableAt i k) := by
    obtain ⟨chosen, rfl⟩ := hr
    exact hsn.priced.table_eq hi hk
  have hsh := hsn.priced.shaped i hi k hk
  have hen : ∀ e ∈ xs.zipIdx, (do
      let row ← orFail .badIndex (← r.table i k)[e.2]?
      return exactScale.add e.1 (← orFail .badIndex row[m]?) : Except Fault ℚ) = .ok (e.1 + t.link i k e.2 m) := by
    rintro ⟨x, p⟩ he
    have hp : p < size i := hlen ▸ (List.getElem?_eq_some_iff.1 (mk_mem_zipIdx_iff_getElem?.1 he)).1
    have hm' : m < ((t.tableAt i k).getD p []).length := (hsh.length_getD hp).symm ▸ hm
    have hent : ((t.tableAt i k).getD p [])[m]? = some (t.link i k p m) := getElem?_eq_some_getD 0 hm'
    simp only [htb, ok_bind, hsh.getElem?_eq hp, orFail_some, hent]
    rfl
  refine ⟨_, mapM_eq_ok hen, by simp [hlen], fun p hp => ?_⟩
  have hp' : p < xs.length := hlen.symm ▸ hp
  simp [hp']

lemma settledCosts_eq_ok (hsn : t.Sound size) (hr : ∃ chosen, r = { t with chosen })
    (hi : t.Known i) (hlt : ∀ j p, r.chosen.get? j = some p → p < size j)
    (hch : ∀ k ∈ t.around i, k ∈ r.chosen.keys) : ∃ xs, r.settledCosts exactScale i = .ok xs ∧ xs.length = size i ∧
      ∀ c, Extends c r.chosen → ∀ p < size i, xs.getD p 0 = t.beside i p c := by
  have hng : r.neighbours i = .ok (t.around i) := by
    obtain ⟨chosen, rfl⟩ := hr
    exact hsn.linked.neighbours_eq hi
  have hcs : r.costsOf i = .ok (t.prices i) := by
    obtain ⟨chosen, rfl⟩ := hr
    exact hsn.priced.costsOf_eq hi
  rw [settledCosts, hng, hcs]
  refine foldlM_eq_ok (fun seen (xs : List ℚ) => xs.length = size i ∧ ∀ c, Extends c r.chosen →
    ∀ p < size i, xs.getD p 0 = t.cost i p + (seen.map fun k => t.link i k p (c k)).sum)
    ⟨hsn.priced.length i hi, fun c _ p _ => by simp [cost]⟩ ?_
  rintro seen k rest xs hsp ⟨hlen, hxs⟩
  have hk : k ∈ t.around i := by simp [hsp]
  obtain ⟨m, hm⟩ := exists_get? (hch k hk)
  obtain ⟨ys, hys, hyl, hvs⟩ := mapM_addEdge_eq_ok hsn hr hi hk (hlt k m hm) hlen
  refine ⟨ys, ?_, hyl, fun c hc p hp => ?_⟩
  · rw [hm, orFail_some]
    exact hys
  · rw [hvs p hp, hxs c hc p hp, map_append, sum_append, map_singleton, sum_singleton, hc k m hm, add_assoc]

/-- When a run has ended, the nodes that are left have no neighbours and stand in the first
bucket. -/
lemma Sound.mem_headD (h : t.Sound size) (hend : t.step exactScale = .ok none) :
    (∀ j ∈ t.live, t.around j = []) ∧ ∀ j, j ∈ t.buckets.headD [] ↔ j ∈ t.live := by
  have hlst : ∀ j ∈ t.live, t.around j = [] ∧ j ∈ t.buckets.headD [] := by
    rcases h.step_cases with ⟨-, hlst⟩ | ⟨i, u, hu, -⟩ | ⟨i, hu, -⟩
    · exact hlst
    all_goals
      rw [hu] at hend
      cases hend
  refine ⟨fun j hj => (hlst j hj).1, fun j => ⟨fun hj => mem_flatten_iff.2 ⟨0, ?_⟩, fun hj => (hlst j hj).2⟩⟩
  rwa [headD_eq_getD] at hj

section

variable (h : Underway size t)
include h

lemma Underway.keys_chosen_subset {j : ℕ} (hj : j ∈ t.chosen.keys) : j ∈ t.stack := by
  obtain ⟨p, hp⟩ := exists_get? hj
  exact (h.mem_stack j p hp).1

lemma Underway.foldlM_left_eq_ok (hend : t.step exactScale = .ok none) :
    ∃ r, (t.buckets.headD []).foldlM (fun (s : Elimination ℚ) i => do
        s.chooseLeast exactScale i (← s.costsOf i)) t = .ok r ∧
      Settling size t r (t.buckets.headD []) := by
  obtain ⟨hno, hlv⟩ := h.sound.mem_headD hend
  have hnd : (t.buckets.headD []).Nodup := by
    rw [headD_eq_getD]
    exact h.sound.filed.nodup 0
  have hfr : Settling size t t [] := ⟨⟨t.chosen, rfl⟩, h.chosen_nodup, by simp,
    fun j p hj => (h.mem_stack j p hj).2, by simp⟩
  refine foldlM_eq_ok (fun seen r => Settling size t r seen) hfr ?_
  intro seen i rest r hsp hsn
  have hi : i ∈ t.live := (hlv i).1 (by rw [hsp]; simp)
  have hcs : r.costsOf i = .ok (t.prices i) := by
    obtain ⟨chosen, rfl⟩ := hsn.eq
    exact h.sound.priced.costsOf_eq (.inl hi)
  have hdn := notMem_seen hnd hsp
  have hch : i ∉ t.chosen.keys := fun hc => h.sound.linked.retired i (h.keys_chosen_subset hc) hi
  rw [hcs]
  refine hsn.chooseLeast hdn hch (h.sound.priced.size_pos i (.inl hi))
    (h.sound.priced.length i (.inl hi)) fun c _ p _ => ?_
  simp [beside, hno i hi, cost]

/-- The retired nodes get their choices, the last one first. -/
lemma Underway.foldlM_stack_eq_ok {left : List ℕ} (hlf : ∀ j, j ∈ left ↔ j ∈ t.live) (hr : Settling size t r left) :
    ∃ r', t.stack.reverse.foldlM (fun (s : Elimination ℚ) i => do
        if s.chosen.contains i then return s
        else s.chooseLeast exactScale i (← s.settledCosts exactScale i)) r = .ok r' ∧
      Settling size t r' (left ++ t.stack.reverse) := by
  refine foldlM_eq_ok (fun seen r => Settling size t r (left ++ seen)) (by rwa [append_nil]) ?_
  intro seen i rest r hsp hsn
  rw [← append_assoc]
  have hst : t.stack = rest.reverse ++ i :: seen.reverse := by
    have hrv := congrArg reverse hsp
    simpa using hrv
  have hi : i ∈ t.stack := by simp [hst]
  have hdn : i ∉ left ++ seen := by
    have hnd := h.sound.linked.stack_nodup
    rw [hst] at hnd
    rw [mem_append, not_or]
    refine ⟨fun hc => h.sound.linked.retired i hi ((hlf i).1 hc), fun hc => ?_⟩
    exact (nodup_cons.1 (nodup_append.1 hnd).2.1).1 (mem_reverse.2 hc)
  by_cases hch : i ∈ t.chosen.keys
  · have hcn : r.chosen.contains i := contains_iff.2 ((hsn.mem_keys i).2 (.inr hch))
    exact ⟨r, by rw [if_pos hcn]; rfl, hsn.skip hch⟩
  · have hcn : ¬ r.chosen.contains i = true := fun hc =>
      ((hsn.mem_keys i).1 (contains_iff.1 hc)).elim hdn hch
    -- the neighbours of the node are left or were retired after it
    have har : ∀ k ∈ t.around i, k ∈ r.chosen.keys := by
      intro k hk
      refine (hsn.mem_keys k).2 (.inl (mem_append.2 ?_))
      rcases h.sound.linked.later _ i _ hst k hk with hk | hk
      · exact .inl ((hlf k).2 hk)
      · exact .inr (mem_reverse.1 hk)
    obtain ⟨xs, hxs, hlen, hbs⟩ := settledCosts_eq_ok h.sound hsn.eq (.inr hi) hsn.lt har
    rw [if_neg hcn, hxs]
    exact hsn.chooseLeast hdn hch (h.sound.priced.size_pos i (.inr hi)) hlen hbs

/-- After a run has ended, every node gets a choice, the least beside those of its neighbours unless
it was fixed before. -/
lemma Underway.backward_eq_ok (hend : t.step exactScale = .ok none) : ∃ r, t.backward exactScale = .ok r ∧
      Settling size t r (t.buckets.headD [] ++ t.stack.reverse) := by
  obtain ⟨r, hr, hst⟩ := h.foldlM_left_eq_ok hend
  obtain ⟨r', hr', hst'⟩ := h.foldlM_stack_eq_ok (h.sound.mem_headD hend).2 hst
  have hstc : r.stack = t.stack := by
    obtain ⟨chosen, rfl⟩ := hst.eq
    rfl
  refine ⟨r', ?_, hst'⟩
  rw [backward, hr, ok_bind, hstc]
  exact hr'

end

variable {s : Elimination ℚ} {b : ℕ → ℕ}

def choice (s : Elimination ℚ) (i : ℕ) : ℕ := (s.chosen.get? i).getD 0

/-- An assignment has the least total among all that assign a choice to each node. -/
def Minimises (size : ℕ → ℕ) (s : Elimination ℚ) (b : ℕ → ℕ) : Prop :=
  ∀ a, (∀ j ∈ s.live, a j < size j) → s.total b ≤ s.total a

/-- If nothing was fixed during a run, choices that have the least total at its end and cost least
beside each other at the retired nodes have the least total at its start. -/
lemma Underway.minimises_of_run (h : Underway size s) (hrun : ReflTransGen Steps s t) (hopt : t.optimal)
    (hb : ∀ j, t.Known j → b j < size j) (hend : Minimises size t b)
    (hlst : ∀ j ∈ t.stack, ∀ q < size j, t.beside j (b j) b ≤ t.beside j q b) : Minimises size s b := by
  induction hrun using ReflTransGen.head_induction_on with
  | refl => exact hend
  | @head s u hst hrun ih =>
    obtain ⟨hu, i, hrd, hel⟩ := h.step hst
    obtain ⟨-, hnd, hkp⟩ := hu.sound.run hrun
    obtain ⟨hsp, hel⟩ := hel ((hu.run hrun).2 hopt)
    have hmin : Minimises size u b := ih hu
    have hi : i ∈ u.stack := by
      rw [hrd.stack]
      simp
    have hvl : ∀ j ∈ s.live, b j < size j := by
      intro j hj
      refine hb j ((hnd j).2 ?_)
      by_cases hji : j = i
      · exact .inr (hji ▸ hi)
      · exact .inl ((hrd.mem_live j).2 ⟨hj, hji⟩)
    -- the node keeps what it had when it was taken out
    have hbs : ∀ p, t.beside i p b = s.beside i p b := (((hrd.keeps i hi).trans (hkp i hi).2).beside_eq · b)
    have hch : ∀ q < size i, s.beside i (b i) b ≤ s.beside i q b := by
      intro q hq
      rw [← hbs, ← hbs]
      exact hlst i (hkp i hi).1 q hq
    have hls : ∀ a, (∀ j ∈ s.live, a j < size j) → u.total b ≤ s.total a := by
      intro a ha
      exact (hmin a fun j hj => ha j ((hrd.mem_live j).1 hj).1).trans (hel.total_le h.sound ha)
    obtain ⟨a, ha, hps⟩ := h.feasible hsp
    have htl : s.total b = u.total b := hel.total_eq_of_least h.sound hvl hch ((hls a ha).trans_lt hps)
    intro a' ha'
    exact htl.trans_le (hls a' ha')

/-- When no node that is left has a neighbour, least choices have the least total. -/
lemma minimises_of_least (hno : ∀ j ∈ t.live, t.around j = [])
    (hls : ∀ j ∈ t.live, ∀ q < size j, t.cost j (b j) ≤ t.cost j q) : Minimises size t b := by
  have htl : ∀ a, t.total a = ∑ j ∈ t.live.toFinset, t.cost j (a j) := by
    intro a
    rw [total, totalCost, add_eq_left]
    refine Finset.sum_eq_zero fun j hj => Finset.sum_eq_zero fun k _ => ?_
    rw [pair, hno j (mem_toFinset.1 hj), if_neg not_mem_nil]
  intro a ha
  rw [htl, htl]
  refine sum_le_sum fun j hj => ?_
  exact hls j (mem_toFinset.1 hj) _ (ha j (mem_toFinset.1 hj))

/-- The choices are one for each node, and have the least total unless a choice was fixed. -/
structure Solves (size : ℕ → ℕ) (s r : Elimination ℚ) : Prop where
  nodup : r.chosen.keys.Nodup
  mem_keys : ∀ j, j ∈ r.chosen.keys ↔ j ∈ s.live
  choice_lt : ∀ j ∈ s.live, r.choice j < size j
  minimises : r.optimal = true → Minimises size s r.choice

/-- The choices made at the end of a run solve what it started from. -/
lemma Underway.exists_solves (h : Underway size s) (hstc : s.stack = []) (hrun : ReflTransGen Steps s t)
    (hend : t.step exactScale = .ok none) : ∃ r, t.backward exactScale = .ok r ∧ Solves size s r := by
  have ht := (h.run hrun).1
  have hnd := (h.sound.run hrun).2.1
  obtain ⟨r, hr, hst⟩ := ht.backward_eq_ok hend
  obtain ⟨hno, hlv⟩ := ht.sound.mem_headD hend
  have hkn : ∀ j, t.Known j ↔ j ∈ s.live := by
    intro j
    rw [hnd, Known, hstc]
    simp
  have hdn : ∀ j, j ∈ t.buckets.headD [] ++ t.stack.reverse ↔ t.Known j := by
    intro j
    rw [mem_append, hlv, mem_reverse]
  have hks : ∀ j, j ∈ r.chosen.keys ↔ j ∈ s.live := by
    intro j
    rw [hst.mem_keys, hdn, hkn]
    refine or_iff_left_of_imp fun hj => (hkn j).1 (.inr (ht.keys_chosen_subset hj))
  have hex : Extends r.choice r.chosen := by
    intro j p hj
    rw [choice, hj, getD_some]
  have hlt : ∀ j ∈ s.live, r.choice j < size j := by
    intro j hj
    obtain ⟨p, hp⟩ := exists_get? ((hks j).2 hj)
    rw [hex j p hp]
    exact hst.lt j p hp
  refine ⟨r, hr, hst.nodup, hks, hlt, fun hopt => ?_⟩
  have htp : t.optimal := by
    obtain ⟨chosen, rfl⟩ := hst.eq
    exact hopt
  have hls : ∀ j, t.Known j → ∀ q < size j, t.beside j (r.choice j) r.choice ≤ t.beside j q r.choice := fun j hj =>
    hst.least j ((hdn j).2 hj) (get?_eq_none.1 (ht.unchosen htp j)) r.choice hex
  refine h.minimises_of_run hrun htp (fun j hj => hlt j ((hkn j).1 hj))
    (minimises_of_least hno fun j hj q hq => ?_) fun j hj => hls j (.inr hj)
  have hcs := hls j (.inl hj) q hq
  simpa [beside, hno j hj] using hcs

lemma solve_eq (s : Elimination ℚ) : s.solve exactScale =
    s.forward exactScale (s.live.length + 1) >>= (·.backward exactScale) := rfl

/-! ### From the start -/

abbrev choices (s : Elimination ℚ) (i : ℕ) : ℕ := (s.prices i).length

/-- A problem before the first step: a simple graph whose nodes are filed by their degrees, with at
least one choice at every node, no cost less than zero, and the two tables of every edge transposes
of each other that no other edge names. -/
@[mk_iff]
structure Posed (s : Elimination ℚ) : Prop where
  nonempty : s.live ≠ []
  mem_keys : ∀ i ∈ s.live, i ∈ s.adjacent.keys
  mem_live : ∀ i ∈ s.adjacent.keys, i ∈ s.live
  nodup : s.live.Nodup
  filed : ∀ i ∈ s.live, i ∈ s.buckets.getD (s.around i).length []
  degree : ∀ i ∈ s.live, s.degree.get? i = some (s.around i).length
  room : ∀ i ∈ s.live, (s.around i).length + 2 ≤ s.buckets.length
  around_nodup : ∀ i ∈ s.live, (s.around i).Nodup
  irrefl : ∀ i ∈ s.live, i ∉ s.around i
  symm : ∀ i ∈ s.live, ∀ k ∈ s.around i, k ∈ s.live ∧ i ∈ s.around k
  prices_ne_nil : ∀ i ∈ s.live, s.prices i ≠ []
  prices_nonneg : ∀ i ∈ s.live, ∀ x ∈ s.prices i, 0 ≤ x
  length : ∀ i ∈ s.live, ∀ k ∈ s.around i, (s.tableAt i k).length = s.choices i
  row_length : ∀ i ∈ s.live, ∀ k ∈ s.around i, ∀ row ∈ s.tableAt i k, row.length = s.choices k
  table_nonneg : ∀ i ∈ s.live, ∀ k ∈ s.around i, ∀ row ∈ s.tableAt i k, ∀ x ∈ row, 0 ≤ x
  mirrored : ∀ i ∈ s.live, ∀ k ∈ s.around i, ∀ p < s.choices i, ∀ q < s.choices k, s.link k i q p = s.link i k p q
  apart : ∀ i ∈ s.live, ∀ k ∈ s.around i, ∀ j ∈ s.live, ∀ l ∈ s.around j,
    s.tableOf.get? (i, k) = s.tableOf.get? (j, l) → i = j ∧ k = l
  stack_eq : s.stack = []
  chosen_eq : s.chosen = {}
  optimal_eq : s.optimal = true

instance (s : Elimination ℚ) : Decidable s.Posed := decidable_of_iff _ (posed_iff s).symm

/-- The least total is that of a possible layout. -/
def Possible (s : Elimination ℚ) : Prop := ∃ a, (∀ i ∈ s.live, a i < s.choices i) ∧ s.total a < exactScale.invalid

namespace Posed

section

variable (h : s.Posed)
include h

lemma isFiled : Filed s.buckets s.degree := by
  have hflt := nodup_flatten.1 h.nodup
  have hbc : ∀ d (hd : d < s.buckets.length), s.buckets.getD d [] = s.buckets[d] := fun d hd => getD_eq_getElem _ _ hd
  refine ⟨fun d => ?_, fun d i hi => ?_⟩
  · rcases lt_or_ge d s.buckets.length with hd | hd
    · rw [hbc d hd]
      exact hflt.1 _ (getElem_mem hd)
    · rw [getD_eq_default _ _ hd]
      exact nodup_nil
  · have hlv : i ∈ s.live := mem_flatten_iff.2 ⟨d, hi⟩
    have hfl := h.filed i hlv
    -- a node that stands in two buckets would be twice among the nodes
    have hds := pairwise_iff_getElem.1 hflt.2
    have hd := lt_length_of_mem_getD hi
    have hlen := lt_length_of_mem_getD hfl
    rw [hbc d hd] at hi
    rw [hbc _ hlen] at hfl
    rw [h.degree i hlv, some.injEq]
    rcases lt_trichotomy d (s.around i).length with hlt | heq | hgt
    · exact absurd hfl (hds d _ hd hlen hlt hi)
    · exact heq.symm
    · exact absurd hi (hds _ d hlen hd hgt hfl)

lemma live_of_known (hi : s.Known i) : i ∈ s.live := by
  rw [Known, h.stack_eq] at hi
  exact hi.resolve_right not_mem_nil

lemma linked : s.Linked := by
  refine ⟨fun i hi => ?_, h.around_nodup, h.irrefl, fun i hi k hk => (h.symm i hi k hk).1,
    fun i hi k hk => (h.symm i hi k hk).2, ?_, ?_, ?_⟩
  · obtain ⟨list, hls⟩ := exists_get? (h.mem_keys i (h.live_of_known hi))
    rw [around, hls, getD_some]
  · rw [h.stack_eq]
    exact nodup_nil
  · rw [h.stack_eq]
    exact fun i hi => absurd hi not_mem_nil
  · rw [h.stack_eq]
    intro before i after hsp
    simp at hsp

lemma priced : s.Priced s.choices := by
  have hsh : ∀ i ∈ s.live, ∀ k ∈ s.around i, (s.tableAt i k).Shaped (s.choices i) (s.choices k) :=
    fun i hi k hk => ⟨h.length i hi k hk, h.row_length i hi k hk⟩
  refine ⟨fun i hi => ?_, fun i _ => rfl, fun i hi => length_pos_iff.2 (h.prices_ne_nil i (h.live_of_known hi)),
    fun i hi => hsh i (h.live_of_known hi),
    fun i hi k hk j hj => h.apart i (h.live_of_known hi) k hk j (h.live_of_known hj), fun i hi p => ?_,
    fun i hi k hk p q => ?_, fun i hi k hk p q => ?_⟩
  · cases hcs : s.costs.get? i with
    | none => exact absurd (by rw [prices, hcs]; rfl) (h.prices_ne_nil i (h.live_of_known hi))
    | some xs => rw [prices, hcs, getD_some]
  · exact getD_nonneg (h.prices_nonneg i hi) p
  · exact CostTable.entry_nonneg (h.table_nonneg i hi k hk) p q
  · obtain ⟨hk', hik⟩ := h.symm i hi k hk
    by_cases hpq : p < s.choices i ∧ q < s.choices k
    · exact h.mirrored i hi k hk p hpq.1 q hpq.2
    · rw [link, link, (hsh i hi k hk).entry_of_le (by omega), (hsh k hk' i hik).entry_of_le (by omega)]

lemma sound : s.Sound s.choices := by
  obtain ⟨i, hi⟩ := exists_mem_of_ne_nil _ h.nonempty
  have hrm := h.room i hi
  exact ⟨h.isFiled, h.degree, h.room, by omega, h.linked, h.priced⟩

lemma underway (hps : s.Possible) : Underway s.choices s := by
  have hun : ∀ j, s.chosen.get? j = none := by
    intro j
    rw [h.chosen_eq]
    rfl
  refine ⟨h.sound, ?_, fun j p hj => ?_, fun _ => hun, fun _ => hps⟩
  · rw [h.chosen_eq]
    exact nodup_nil
  · rw [hun] at hj
    cases hj

end

/-- The elimination ends, and either makes one choice at every node, with the least total unless a
choice was fixed by its local cost on the way; or it is refused at a node for which no choice can be
fixed, and then a choice had been fixed before. -/
theorem choices_least_or_refused (h : s.Posed) (hpossible : s.Possible) :
    (∃ t r, Relation.ReflTransGen Steps s t ∧ t.step exactScale = .ok none ∧
      t.backward exactScale = .ok r ∧ s.solve exactScale = .ok r ∧ Solves s.choices s r) ∨
    ∃ t i, Relation.ReflTransGen Steps s t ∧ t.optimal = false ∧
      t.step exactScale = .error (stuckAt i) ∧ s.solve exactScale = .error (stuckAt i) := by
  have hunderway := h.underway hpossible
  rcases hunderway.forward_cases (Nat.lt_succ_self _) with
    ⟨t, hrun, hend, hforward⟩ | ⟨t, i, hrun, hstuck, hopt, hforward⟩
  · obtain ⟨r, hbackward, hsolves⟩ := hunderway.exists_solves h.stack_eq hrun hend
    exact .inl ⟨t, r, hrun, hend, hbackward, by rw [solve_eq, hforward, ok_bind, hbackward], hsolves⟩
  · exact .inr ⟨t, i, hrun, hopt, hstuck, by rw [solve_eq, hforward, error_bind]⟩

/-- Three nodes, each a neighbour of the other two; the first and the last are tied to the same
choice. -/
def triangle : Elimination ℚ where
  adjacent := ⟨[(1, [2, 3]), (2, [1, 3]), (3, [1, 2])]⟩
  costs := ⟨[(1, [1 / 2, 2]), (2, [3, 0]), (3, [0, 1])]⟩
  degree := ⟨[(1, 2), (2, 2), (3, 2)]⟩
  buckets := [[], [], [1, 2, 3], []]
  tables := [[[0, 4], [1, 0]], [[0, 1], [4, 0]], exactScale.tie 2, exactScale.tie 2, [[2, 0], [0, 5]], [[2, 0], [0, 5]]]
  tableOf := ⟨[((1, 2), 0), ((2, 1), 1), ((1, 3), 2), ((3, 1), 3), ((2, 3), 4), ((3, 2), 5)]⟩

theorem triangle_choices_least : triangle.Posed ∧ triangle.Possible ∧
    ∃ r, triangle.solve exactScale = .ok r ∧ r.optimal = true ∧
      Solves triangle.choices triangle r := by
  have hposed : triangle.Posed := by decide +kernel
  have hpossible : triangle.Possible := ⟨fun _ => 0, by decide, by decide +kernel⟩
  have hanswer : (triangle.solve exactScale).map (·.optimal) = .ok true := by decide +kernel
  refine ⟨hposed, hpossible, ?_⟩
  rcases choices_least_or_refused hposed hpossible with
    ⟨t, r, -, -, -, hr, hsolves⟩ | ⟨t, i, -, -, -, hr⟩
  · rw [hr] at hanswer
    exact ⟨r, hr, Except.ok.inj hanswer, hsolves⟩
  · rw [hr] at hanswer
    cases hanswer

/-- Five nodes, each a neighbour of all others. The first choice at the first node costs least
there, but then the last two nodes must both take their first choices, which exclude each other. -/
def fiveNodes : Elimination ℚ :=
  let nodes := [1, 2, 3, 4, 5]
  let edges := nodes.flatMap fun i => (nodes.filter (· ≠ i)).map fun k => (i, k)
  let table := fun (e : ℕ × ℕ) =>
    if e = (1, 4) ∨ e = (1, 5) then [[0, exactScale.invalid], [0, 0]]
    else if e = (4, 1) ∨ e = (5, 1) then [[0, 0], [exactScale.invalid, 0]]
    else if e = (4, 5) ∨ e = (5, 4) then [[exactScale.invalid, 0], [0, 0]]
    else [[0, 0], [0, 0]]
  { adjacent := ⟨nodes.map fun i => (i, nodes.filter (· ≠ i))⟩
    costs := ⟨nodes.map fun i => (i, if i = 1 then [0, 1] else [0, 0])⟩
    degree := ⟨nodes.map fun i => (i, 4)⟩
    buckets := [[], [], [], [], nodes, []]
    tables := edges.map table
    tableOf := ⟨edges.zipIdx⟩ }

/-- A problem with a possible layout can be refused after a choice was fixed. -/
theorem fiveNodes_refused : fiveNodes.Posed ∧ fiveNodes.Possible ∧
    fiveNodes.solve exactScale = .error (stuckAt 5) := by
  have hanswer : (fiveNodes.solve exactScale).map (·.optimal) = .error (stuckAt 5) := by decide +kernel
  refine ⟨by decide +kernel, ⟨fun i => if i = 1 ∨ i = 4 then 1 else 0, by decide, by decide +kernel⟩, ?_⟩
  cases hsolve : fiveNodes.solve exactScale with
  | ok r =>
    rw [hsolve] at hanswer
    cases hanswer
  | error e =>
    rw [hsolve] at hanswer
    rw [Except.error.inj hanswer]

/-! ### On the way -/

lemma simple (h : s.Posed) : s.Simple where
  filed := h.sound.filed
  degree_eq := h.degree
  room := h.room
  irrefl i hi := by
    refine h.irrefl i (h.mem_live i ?_) hi
    cases hlist : s.adjacent.get? i with
    | none => simp [around, hlist] at hi
    | some list => exact mem_keys_of_get? hlist
  retired := h.linked.retired
  stack_nodup := h.linked.stack_nodup
  mem_live i hi k hk := (h.symm i hi k hk).1
  symm i hi k hk := by
    rw [(h.around_nodup i hi).count, (h.around_nodup k hk).count]
    exact if_congr ⟨fun hmem => (h.symm i hi k hmem).2, fun hmem => (h.symm k hk i hmem).2⟩ rfl rfl
  le_one i hi := nodup_iff_count_le_one.1 (h.around_nodup i hi)

/-- Whatever the costs and the tables are, every state on the way holds a simple graph, in which
each node stands once, in the bucket of its degree, and has no more neighbours than at the start; a
step takes one node to the stack. The elimination ends: either no node that is left has a neighbour,
and each of the others is on the stack once, or a step is refused. If the problem is posed, it is
refused at a node that has no possible choice. -/
theorem simple_until_end {γ : Type} (c : CostScale γ) {s : Elimination γ} (h : s.Simple) (hstack : s.stack = []) :
    (∀ t, ReflTransGen (Follows c) s t →
      (∀ i ∈ t.live, (t.around i).Nodup ∧ i ∉ t.around i ∧ (∀ k ∈ t.around i, k ∈ t.live ∧ i ∈ t.around k) ∧
        (∀ d, (t.buckets.getD d []).count i = if d = (t.around i).length then 1 else 0) ∧
        (t.around i).length ≤ (s.around i).length) ∧
      ∀ u, Follows c t u → ∃ i ∈ t.live, u.stack = t.stack ++ [i] ∧ ∀ j, j ∈ u.live ↔ j ∈ t.live ∧ j ≠ i) ∧
    (∃ t, ReflTransGen (Follows c) s t ∧
      (s.forward c (s.live.length + 1) = .ok t ∧ (∀ i ∈ t.live, t.around i = []) ∧
        (∀ i, t.stack.count i = if i ∈ s.live ∧ i ∉ t.live then 1 else 0) ∨
      ∃ f, t.step c = .error f ∧ s.forward c (s.live.length + 1) = .error f)) ∧
    ∀ p : Elimination ℚ, p.Posed → p.Simple ∧ p.stack = [] ∧
      ∀ f, p.forward exactScale (p.live.length + 1) = .error f → ∃ i, f = stuckAt i := by
  refine ⟨fun t hrun => ?_, ?_, fun p hp => ⟨hp.simple, hp.stack_eq, fun f hf => ?_⟩⟩
  · obtain ⟨ht, -, hle⟩ := h.run hrun
    refine ⟨fun i hi => ⟨nodup_iff_count_le_one.2 (ht.le_one i hi), ht.irrefl i, fun k hk => ?_, fun d => ?_, hle i⟩,
      fun u hu => ?_⟩
    · have hlive := ht.mem_live i hi k hk
      exact ⟨hlive, count_pos_iff.1 (ht.symm i hi k hlive ▸ count_pos_iff.2 hk)⟩
    · have hdegree := ht.degree_eq i hi
      rw [(ht.filed.nodup d).count]
      refine if_congr ⟨fun hd => ?_, ?_⟩ rfl rfl
      · exact some.inj ((ht.filed.degree_eq d i hd).symm.trans hdegree)
      · rintro rfl
        exact ht.filed.mem_bucket hi hdegree
    · obtain ⟨-, i, hi, hpushed, hlive, -⟩ := ht.step hu
      exact ⟨i, hi, hpushed, hlive⟩
  · obtain ⟨t, hrun, ⟨hend, hforward⟩ | hrefused⟩ := h.forward_cases (Nat.lt_succ_self _)
    · obtain ⟨ht, hknown, -⟩ := h.run hrun
      refine ⟨t, hrun, .inl ⟨hforward, fun i => ht.around_eq_nil hend, fun i => ?_⟩⟩
      have hi := hknown i
      simp only [Known, hstack, not_mem_nil, or_false] at hi
      rw [ht.stack_nodup.count]
      refine if_congr ⟨fun hmem => ⟨hi.1 (.inr hmem), ht.retired i hmem⟩, fun hmem => ?_⟩ rfl rfl
      exact (hi.2 hmem.1).resolve_left hmem.2
    · exact ⟨t, hrun, .inr hrefused⟩
  · rcases hp.sound.forward_cases (Nat.lt_succ_self _) with ⟨t, -, -, hforward⟩ | ⟨t, i, -, -, hforward, -⟩
    · rw [hforward] at hf
      cases hf
    · exact ⟨i, Except.error.inj (hf.symm.trans hforward)⟩

theorem triangle_emptied : triangle.Simple ∧ ∃ t, ReflTransGen (Follows exactScale) triangle t ∧
    triangle.forward exactScale 4 = .ok t ∧ ∀ i ∈ t.live, t.around i = [] := by
  have hposed : triangle.Posed := by decide +kernel
  have hanswer : (triangle.forward exactScale 4).map (·.optimal) = .ok true := by decide +kernel
  refine ⟨hposed.simple, ?_⟩
  obtain ⟨t, hrun, ⟨hforward, hno, -⟩ | ⟨f, -, hforward⟩⟩ :=
    (simple_until_end exactScale hposed.simple hposed.stack_eq).2.1
  · exact ⟨t, hrun, hforward, hno⟩
  · rw [show 4 = triangle.live.length + 1 from rfl, hforward] at hanswer
    cases hanswer

/-- Not every elimination of a simple graph ends with no neighbours left. -/
theorem fiveNodes_not_emptied : fiveNodes.Posed ∧
    ¬ ∃ t, fiveNodes.forward exactScale 6 = .ok t := by
  have hanswer : (fiveNodes.forward exactScale 6).map (·.optimal) = .error (stuckAt 5) := by decide +kernel
  refine ⟨by decide +kernel, ?_⟩
  rintro ⟨t, ht⟩
  rw [ht] at hanswer
  cases hanswer

end Posed

end TensorToolchain.LayoutChoice.Elimination
