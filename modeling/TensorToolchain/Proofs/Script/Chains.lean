import TensorToolchain.Proofs.Script.Agreement

/-!
# Chains of comparisons

A chain of comparisons is meant as a conjunction: every operand is compared with its left neighbour.
Its evaluation goes from the left and hands on the truth value of the chain so far, so that from the
second comparison on an operand is compared with 0 or 1 in place of its neighbour.
-/

namespace TensorToolchain

open List

variable {n : Int}

namespace Value

open Number (Scalar)

variable {v w : Value} {m : Int}

lemma of_integer?_eq_some (h : v.integer? = some n) :
    v = .int n ∨ ∃ b : Bool, v = .bool b ∧ n = if b then 1 else 0 := by
  cases v with
  | int m => exact .inl (congrArg int (Option.some.inj h))
  | bool b => exact .inr ⟨b, rfl, (Option.some.inj h).symm⟩
  | _ => cases h

lemma equal_of_integers (hv : v.integer? = some m) (hw : w.integer? = some n) : v.equal w = decide (m = n) := by
  have hsc : v.equal w = Scalar.equal (.int m) (.int n) := by
    obtain rfl | ⟨b, rfl, rfl⟩ := of_integer?_eq_some hv
    all_goals obtain rfl | ⟨c, rfl, rfl⟩ := of_integer?_eq_some hw
    all_goals simp [equal, scalar?]
  rw [hsc, Scalar.equal, Scalar.compare?, Bool.eq_iff_iff]
  simp

lemma compareBy_of_integers (c : Comparison) (hv : v.integer? = some m) (hw : w.integer? = some n) :
    compareBy c v w = .ok (c.accepts (compare m n)) := by
  obtain rfl | ⟨b, rfl, rfl⟩ := of_integer?_eq_some hv
  all_goals obtain rfl | ⟨c, rfl, rfl⟩ := of_integer?_eq_some hw
  all_goals rfl

end Value

namespace Script

open TensorToolchain.Script.Expr

namespace CompareOp

def isBySize : CompareOp → Bool
  | equal | notEqual | order _ => true
  | _ => false

/-- The relation of integers that a comparison by size stands for. -/
def relates : CompareOp → Int → Int → Bool
  | equal, a, b => a = b
  | notEqual, a, b => a ≠ b
  | order .less, a, b => a < b
  | order .lessEqual, a, b => a ≤ b
  | order .greater, a, b => b < a
  | order .greaterEqual, a, b => b ≤ a
  | _, _, _ => false

lemma accepts_compare (c : Value.Comparison) (m n : Int) : c.accepts (compare m n) = (order c).relates m n := by
  rcases lt_trichotomy m n with h | rfl | h
  · rw [compare_lt_iff_lt.2 h]
    cases c <;> simp [relates, Value.Comparison.accepts, h, h.le]
  · cases c <;> simp [relates, Value.Comparison.accepts]
  · rw [compare_gt_iff_gt.2 h]
    cases c <;> simp [relates, Value.Comparison.accepts, h, h.le]

lemma apply_eq {op : CompareOp} (hop : op.isBySize) {x y : Object} {m : Int} (hx : x.value.integer? = some m)
    (hy : y.value.integer? = some n) : op.apply x y = .ok (op.relates m n) := by
  cases op with
  | equal => rw [apply, Value.equal_of_integers hx hy, relates]
  | notEqual => rw [apply, Value.equal_of_integers hx hy, relates, decide_not]
  | order c => rw [apply, Value.compareBy_of_integers c hx hy, accepts_compare]
  | _ => cases hop

end CompareOp

/-! ### Conjunctions and what is carried -/

/-- An operand that is compared with what stands to its left, and the integer that it counts as. -/
structure Compared where
  op : CompareOp
  operand : Expr
  value : Int

variable {ls : List Compared}

/-- The comparison of an expression with others in turn. -/
def chain (first : Expr) (ls : List Compared) : Expr := .compare first (ls.map (·.op)) (ls.map (·.operand))

/-- Whether each operand relates to its left neighbour. -/
def allRelate (left : Int) : List Compared → Bool
  | [] => true
  | l :: ls => l.op.relates left l.value && allRelate l.value ls

/-- The truth value that is left when each operand is compared with the truth value so far. -/
def carriedTruth (truth : Bool) (ls : List Compared) : Bool :=
  ls.foldl (fun truth l => l.op.relates truth.toInt l.value) truth

/-- Each operand relates to the truth value of the conjunction before it as the conjunction goes on:
where it holds, to 1 as to the left neighbour, and where it fails, not to 0. -/
def truthFits (left : Int) (truth : Bool) : List Compared → Bool
  | [] => true
  | l :: ls =>
    l.op.relates truth.toInt l.value == (truth && l.op.relates left l.value) &&
      truthFits l.value (truth && l.op.relates left l.value) ls

/-- What is carried is the conjunction all along a chain exactly if it fits at each operand. -/
lemma carriedTruth_take_iff (left : Int) (truth : Bool) (ls : List Compared) :
    (∀ n ≤ ls.length, carriedTruth truth (ls.take n) = (truth && allRelate left (ls.take n))) ↔
      truthFits left truth ls := by
  induction ls generalizing left truth with
  | nil => simp [truthFits, carriedTruth, allRelate]
  | cons l ls ih =>
    rw [truthFits, Bool.and_eq_true, beq_iff_eq, ← ih]
    constructor
    · intro h
      have hfst : l.op.relates truth.toInt l.value = (truth && l.op.relates left l.value) := by
        simpa [carriedTruth, allRelate] using h 1 (Nat.le_add_left 1 _)
      refine ⟨hfst, fun n hn => ?_⟩
      have hnx := h (n + 1) (Nat.succ_le_succ hn)
      rwa [take_succ_cons, carriedTruth, foldl_cons, hfst, allRelate, ← Bool.and_assoc] at hnx
    · rintro ⟨hfst, hr⟩ n hn
      cases n with
      | zero => simp [carriedTruth, allRelate]
      | succ n =>
        rw [take_succ_cons, carriedTruth, foldl_cons, hfst, allRelate, ← Bool.and_assoc]
        exact hr n (Nat.le_of_succ_le_succ hn)

/-! ### Evaluation -/

/-- An expression all of whose parts mean something, and that itself means an integer. -/
def IsInteger (table : Table) (e : Expr) (n : Int) : Prop :=
  AllMean table.scope e.subexpressions ∧ ∃ x, meaning table.scope e = some x ∧ x.value.integer? = some n

variable {table : Table}

lemma IsInteger.exists_evaluates {e : Expr} (h : IsInteger table e n) :
    ∃ x, Evaluates table.scope e x ∧ x.value.integer? = some n := by
  obtain ⟨hpr, x, hmn, hx⟩ := h
  obtain ⟨y, hy⟩ := Script.exists_evaluates e hpr
  obtain rfl : x = y := Option.some.inj (hmn.symm.trans hy.1)
  exact ⟨x, hy, hx⟩

lemma exists_evaluateAll_operands (h : ∀ l ∈ ls, IsInteger table l.operand l.value) :
    ∃ xs, EvaluateAll table.scope (ls.map (·.operand)) xs ∧
      List.Forall₂ (fun l x => x.value.integer? = some l.value) ls xs := by
  induction ls with
  | nil => exact ⟨[], evaluateAll_nil, .nil⟩
  | cons l ls ih =>
    obtain ⟨x, hx, hv⟩ := (h l mem_cons_self).exists_evaluates
    obtain ⟨xs, hxs, hvs⟩ := ih fun k hk => h k (mem_cons_of_mem _ hk)
    exact ⟨x :: xs, hx.cons hxs, .cons hv hvs⟩

lemma compareChain_eq {xs : List Object} (hops : ∀ l ∈ ls, l.op.isBySize)
    (hxs : List.Forall₂ (fun l x => x.value.integer? = some l.value) ls xs) (truth : Bool) :
    compareChain { value := .bool truth } ((ls.map (·.op)).zip xs) =
      .ok { value := .bool (carriedTruth truth ls) } := by
  induction hxs generalizing truth with
  | nil => rfl
  | @cons l x ls xs hx _ ih =>
    have hlf : (Value.bool truth).integer? = some truth.toInt := by cases truth <;> rfl
    have hap := CompareOp.apply_eq (x := { value := .bool truth }) (hops l mem_cons_self) hlf hx
    rw [map_cons, zip_cons_cons, compareChain, hap]
    exact ih (fun k hk => hops k (mem_cons_of_mem _ hk)) _

variable {first : Expr} {a : Int} {l : Compared}

lemma evaluate_chain (hfst : IsInteger table first a) (hops : ∀ k ∈ l :: ls, k.op.isBySize)
    (hls : ∀ k ∈ l :: ls, IsInteger table k.operand k.value) :
    evaluate table (chain first (l :: ls)) = .ok (.bool (carriedTruth (l.op.relates a l.value) ls)) := by
  obtain ⟨x, hx, hv⟩ := hfst.exists_evaluates
  obtain ⟨xs, hxs, hvs⟩ := exists_evaluateAll_operands hls
  obtain ⟨y, ys, hy, hys, rfl⟩ := forall₂_cons_left_iff.1 hvs
  have hch : compareChain x (((l :: ls).map (·.op)).zip (y :: ys)) =
      .ok { value := .bool (carriedTruth (l.op.relates a l.value) ls) } := by
    rw [map_cons, zip_cons_cons, compareChain, CompareOp.apply_eq (hops l mem_cons_self) hv hy]
    exact compareChain_eq (fun k hk => hops k (mem_cons_of_mem _ hk)) hys _
  obtain ⟨o, p, hrun, -, hdn⟩ := hx.finds_compared hxs (.refl _) (by rw [hch]; rfl)
  rw [evaluate, chain, hrun]
  exact hdn.result_eq

/-- A chain of comparisons of integers by size is evaluated to the truth value that is carried along
it. It and all its beginnings are evaluated to the conjunctions of the comparisons of neighbours
exactly if each operand after the second fits the truth value before it; a single comparison always
is. -/
theorem chain_evaluated_iff (hfirst : IsInteger table first a) (hops : ∀ k ∈ l :: ls, k.op.isBySize = true)
    (hls : ∀ k ∈ l :: ls, IsInteger table k.operand k.value) :
    evaluate table (chain first (l :: ls)) = .ok (.bool (carriedTruth (l.op.relates a l.value) ls)) ∧
    ((∀ n ≤ ls.length, evaluate table (chain first (l :: ls.take n)) = .ok (.bool (allRelate a (l :: ls.take n)))) ↔
      truthFits l.value (l.op.relates a l.value) ls = true) := by
  refine ⟨evaluate_chain hfirst hops hls, ?_⟩
  rw [← carriedTruth_take_iff]
  refine forall₂_congr fun n _ => ?_
  have hsubset : ∀ k ∈ l :: ls.take n, k ∈ l :: ls := List.cons_subset_cons l (List.take_subset n ls)
  rw [evaluate_chain hfirst (fun k hk => hops k (hsubset k hk)) fun k hk => hls k (hsubset k hk), allRelate]
  simp

def threeNumbers : Table := [("a", .int 1), ("b", .int 2), ("c", .int 3)]

/-- `b < 3 <= c` is evaluated to what it means. -/
theorem bounded_chain_evaluated :
    IsInteger threeNumbers (.name "b") 2 ∧ truthFits 3 true [⟨.order .lessEqual, .name "c", 3⟩] = true ∧
    evaluate threeNumbers (chain (.name "b")
      [⟨.order .less, .literal (.int 3) (.int 3), 3⟩, ⟨.order .lessEqual, .name "c", 3⟩]) = .ok (.bool true) := by
  have hb : IsInteger threeNumbers (.name "b") 2 :=
    ⟨List.forall_mem_singleton.2 ⟨(by decide : IsVariableName "b"), _, rfl⟩, _, rfl, rfl⟩
  have hc : IsInteger threeNumbers (.name "c") 3 :=
    ⟨List.forall_mem_singleton.2 ⟨(by decide : IsVariableName "c"), _, rfl⟩, _, rfl, rfl⟩
  have hthree : IsInteger threeNumbers (.literal (.int 3) (.int 3)) 3 :=
    ⟨List.forall_mem_singleton.2 ⟨rfl, _, rfl⟩, _, rfl, rfl⟩
  have hls := List.forall_mem_cons (p := fun k : Compared => IsInteger threeNumbers k.operand k.value)
    (a := ⟨.order .less, .literal (.int 3) (.int 3), 3⟩) (l := [⟨.order .lessEqual, .name "c", 3⟩])
  have hevaluated := (chain_evaluated_iff hb (by decide) (hls.2 ⟨hthree, List.forall_mem_singleton.2 hc⟩)).2.2 rfl
  exact ⟨hb, rfl, hevaluated 1 (Nat.le_refl 1)⟩

/-- `3 > 2 > 1` is evaluated to false, and `3 < 2 < 1` to true. -/
theorem chains_misjudged :
    allRelate 3 [⟨.order .greater, .name "b", 2⟩, ⟨.order .greater, .name "a", 1⟩] = true ∧
    evaluate threeNumbers (chain (.name "c") [⟨.order .greater, .name "b", 2⟩, ⟨.order .greater, .name "a", 1⟩]) =
      .ok (.bool false) ∧
    allRelate 3 [⟨.order .less, .name "b", 2⟩, ⟨.order .less, .name "a", 1⟩] = false ∧
    evaluate threeNumbers (chain (.name "c") [⟨.order .less, .name "b", 2⟩, ⟨.order .less, .name "a", 1⟩]) =
      .ok (.bool true) := by
  refine ⟨rfl, rfl, rfl, rfl⟩

end Script

end TensorToolchain
