import Mathlib
import TensorToolchain.Tuning.Curves

/-!
# Recall of trials

The share of the best trials that were found so far does not count the latest trial. The unbroken
run of the best ranks is extended as far as it goes.
-/

namespace TensorToolchain.Tuning

open List Number Scalar

/-- How many of the first `n` ranks are below a bound. -/
def foundBelow (ranks : List Int) (n : Nat) (bound : Int) : Nat := (ranks.take n).countP (· < bound)

variable (ranks : List Int) (n : Nat)

/-- One trial more is found exactly if its rank is below the bound. -/
lemma foundBelow_succ (hn : n < ranks.length) (bound : Int) :
    foundBelow ranks (n + 1) bound = foundBelow ranks n bound + if ranks[n] < bound then 1 else 0 := by
  rw [foundBelow, take_succ_eq_append_getElem hn, countP_append, countP_singleton, foundBelow]
  simp

lemma less_int (a b : Int) : less (.int a) (.int b) = decide (a < b) := by
  by_cases h : a < b <;> simp [less, compare?, compare_lt_iff_lt, h]

/-- As many ranks count as there are trials, the present one included. -/
lemma recallHits_eq : recallHits (ranks.map .int) n = foundBelow ranks n (n + 1) := by
  rw [recallHits, ← map_take, countP_map, foundBelow]
  refine countP_congr fun r _ => ?_
  simp [less_int, equal, compare?]
  omega

lemma topHits_eq (top : Int) : topHits (ranks.map .int) (.int top) n = foundBelow ranks n top := by
  rw [topHits, ← map_take, countP_map, foundBelow]
  exact countP_congr fun r _ => by simp [less_int]

/-- After `n + 1` trials the ranks of the first `n` are counted: those that are not above `n`, of
`n + 1`, or those below a given number, of this number. This is the share among all `n + 1` trials
exactly if the rank of the last of them does not count. -/
theorem recall_omits_latest (top : Option Int) (hn : n < ranks.length) :
    let whole : Int := top.getD (n + 1)
    (recallShares (ranks.map .int) (top.map .int))[n]? = some (foundBelow ranks n whole, .int whole) ∧
    (recallCurve (ranks.map .int) (top.map .int))[n]? = some (.ofNat (foundBelow ranks n whole) / ofInt whole) ∧
    (foundBelow ranks n whole = foundBelow ranks (n + 1) whole ↔ whole ≤ ranks[n]) := by
  intro whole
  have hshare : (recallShares (ranks.map .int) (top.map .int))[n]? = some (foundBelow ranks n whole, .int whole) := by
    rw [recallShares, getElem?_map, getElem?_range (by simpa using hn)]
    cases top with
    | none => exact congrArg (fun hits => some (hits, Scalar.int (n + 1))) (recallHits_eq ranks n)
    | some top => exact congrArg (fun hits => some (hits, Scalar.int top)) (topHits_eq ranks n top)
  refine ⟨hshare, ?_, ?_⟩
  · rw [recallCurve, getElem?_map, hshare]
    rfl
  · rw [foundBelow_succ ranks n hn]
    split_ifs with h <;> simp [h]
    omega

/-- The best of all trials, tried last, is not found. -/
theorem best_last_omitted : (recallShares ([1, 0].map .int) none)[1]? = some (foundBelow [1, 0] 1 2, .int 2) ∧
    foundBelow [1, 0] 1 2 ≠ foundBelow [1, 0] 2 2 := by
  obtain ⟨hshare, -, hiff⟩ := recall_omits_latest [1, 0] 1 none (by decide)
  exact ⟨hshare, fun h => absurd (hiff.1 h) (by decide)⟩

/-- One trial, which is the best of all, is counted as none of one. -/
theorem single_trial_omitted : recallShares [.int 0] none = [(0, .int 1)] ∧ foundBelow [0] 1 1 = 1 := ⟨rfl, rfl⟩

/-! ### Unbroken runs of ranks -/

def Covers (seen : List Int) (k : Nat) : Prop := ∀ j < k, (j : Int) ∈ seen

/-- How often the loop that extends a run goes round. -/
def extensions (seen : List Scalar) : Nat → Nat → Nat
  | 0, _ => 0
  | fuel + 1, covered => if seen.any fun r => r.equal (.int covered) then extensions seen fuel (covered + 1) + 1 else 0

/-- How often it goes round over all trials. -/
def allExtensions : List Scalar → Nat → List Scalar → Nat
  | _, _, [] => 0
  | seen, covered, r :: rest =>
    let seen := r :: seen
    extensions seen seen.length covered + allExtensions seen (extendRun seen seen.length covered) rest

variable {seen : List Int} {covered : Nat}

lemma Covers.le_card (h : Covers seen covered) : covered ≤ seen.toFinset.card := by
  have hsub : (Finset.range covered).map Nat.castEmbedding ⊆ seen.toFinset := fun x hx => by
    obtain ⟨j, hj, rfl⟩ := Finset.mem_map.1 hx
    exact mem_toFinset.2 (h j (Finset.mem_range.1 hj))
  simpa using Finset.card_le_card hsub

/-- A run is as much longer as the loop goes round, and ends before a rank that was not seen or
after the last round. -/
lemma extendRun_spec (fuel : Nat) (h : Covers seen covered) :
    let last := extendRun (seen.map .int) fuel covered
    last = covered + extensions (seen.map .int) fuel covered ∧ Covers seen last ∧
      ((last : Int) ∉ seen ∨ last = covered + fuel) := by
  induction fuel generalizing covered with
  | zero => exact ⟨rfl, h, .inr rfl⟩
  | succ fuel ih =>
    have hany : (seen.map Scalar.int).any (·.equal (.int covered)) ↔ (covered : Int) ∈ seen := by
      simp [equal, compare?]
    simp only [extendRun, extensions, hany]
    split_ifs with hc
    · have hnext : Covers seen (covered + 1) := fun j hj => (Nat.lt_succ_iff_lt_or_eq.1 hj).elim (h j) (· ▸ hc)
      obtain ⟨hsum, hcov, hlast⟩ := ih hnext
      exact ⟨by omega, hcov, hlast.imp_right (by omega)⟩
    · exact ⟨rfl, h, .inl hc⟩

/-- With a round for each rank seen the run cannot be extended any more. -/
lemma extendRun_greatest (h : Covers seen covered) :
    IsGreatest {k | Covers seen k} (extendRun (seen.map .int) seen.length covered) := by
  obtain ⟨-, hcov, hlast⟩ := extendRun_spec seen.length h
  refine ⟨hcov, fun k hk => ?_⟩
  rcases hlast with hlast | hlast
  · exact Nat.le_of_not_lt fun hlt => hlast (hk _ hlt)
  · have := hk.le_card
    have := toFinset_card_le seen
    omega

lemma coverCounts_spec (ranks : List Int) (seen : List Int) (covered : Nat) (h : Covers seen covered) :
    (∀ i < ranks.length, ∃ k, (coverCounts (seen.map .int) covered (ranks.map .int))[i]? = some k ∧
      IsGreatest {k | Covers (ranks.take (i + 1) ++ seen) k} k) ∧
    Covers (ranks ++ seen) (covered + allExtensions (seen.map .int) covered (ranks.map .int)) := by
  induction ranks generalizing seen covered with
  | nil => exact ⟨by simp, h⟩
  | cons r ranks ih =>
    have hc : Covers (r :: seen) covered := fun j hj => mem_cons_of_mem r (h j hj)
    have hg := extendRun_greatest hc
    obtain ⟨hcounts, htotal⟩ := ih _ _ hg.1
    have hmem (front : List Int) (k : Nat) : Covers (front ++ r :: seen) k ↔ Covers (r :: front ++ seen) k := by
      simp [Covers, or_left_comm]
    refine ⟨fun i hi => ?_, ?_⟩
    · cases i with
      | zero => exact ⟨_, rfl, by simpa using hg⟩
      | succ i =>
        obtain ⟨k, hk, hkg⟩ := hcounts i (by simpa using hi)
        exact ⟨k, by simpa [coverCounts] using hk, by simpa only [hmem, take_succ_cons] using hkg⟩
    · have hsum := (extendRun_spec (r :: seen).length hc).1
      rw [map_cons, length_cons] at hsum
      simpa [allExtensions, hsum, add_assoc] using (hmem ranks _).1 htotal

/-- After each trial the share is that of the longest unbroken run among the ranks so far, and over
all trials the run is extended at most once for each rank. -/
theorem coverCurve_greatest (ranks : List Int) (i : Nat) (hi : i < ranks.length) :
    (∃ k, (coverCounts [] 0 (ranks.map .int))[i]? = some k ∧
      (coverCurve (ranks.map .int))[i]? = some (.ofNat k / .ofNat ranks.length) ∧
      IsGreatest {k | Covers (ranks.take (i + 1)) k} k) ∧
    allExtensions [] 0 (ranks.map .int) ≤ ranks.toFinset.card := by
  obtain ⟨hcounts, htotal⟩ := coverCounts_spec ranks [] 0 (fun _ h => absurd h (Nat.not_lt_zero _))
  obtain ⟨k, hk, hg⟩ := hcounts i hi
  refine ⟨⟨k, hk, ?_, by simpa using hg⟩, by simpa using htotal.le_card⟩
  rw [coverCurve, getElem?_map]
  simpa using ⟨k, hk, rfl⟩

/-- The rank that closes a gap extends the run by two. -/
theorem gap_closed : ∃ k, (coverCounts [] 0 ([1, 0, 3].map .int))[1]? = some k ∧ k = 2 ∧
    IsGreatest {k | Covers [1, 0] k} k := by
  obtain ⟨⟨k, hk, -, hg⟩, -⟩ := coverCurve_greatest [1, 0, 3] 1 (by decide)
  exact ⟨k, hk, Option.some.inj (hk.symm.trans (by decide)), hg⟩

end TensorToolchain.Tuning
