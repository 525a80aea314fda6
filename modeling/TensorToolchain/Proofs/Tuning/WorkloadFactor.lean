import TensorToolchain.Proofs.Faults
import TensorToolchain.Tuning.Workload

/-!
# Factors of workloads

With exact division the factor of two workloads is the product of the quotients of their integer
arguments. Factors multiply along a chain of workloads, and a factor of one says that the arguments
agree up to an even number of signs.
-/

namespace TensorToolchain.Tuning

open List Number

/-- Multiply by an exact quotient. -/
def exactStep (acc : ℚ) : Scalar → Scalar → Result ℚ
  | .int m, .int n => .ok (acc * (m / n))
  | _, _ => fail .badType

/-- The factor of two workloads of one name, with exact division. -/
def exactFactor (key : String) (as bs : List Value) : Result (Option ℚ) :=
  Workload.factor exactStep 1 ⟨.str key, some as⟩ ⟨.str key, some bs⟩

inductive OneKind : Value → Value → Prop
  | int (m n : ℤ) : OneKind (.int m) (.int n)
  | str (s t : String) : OneKind (.str s) (.str t)

/-- Equal arguments, or integers that differ in sign only. -/
def UpToSign (a b : Value) : Prop := a = b ∨ ∃ n, a = .int (-n) ∧ b = .int n

/-- The number of places at which arguments differ. -/
def unlike (as bs : List Value) : ℕ := (as.zip bs).countP fun p => !p.1.equal p.2

/-- The quotient of arguments that go together. -/
inductive Ratio : Value → Value → ℤ → Prop
  | str (s : String) : Ratio (.str s) (.str s) 1
  | zero : Ratio (.int 0) (.int 0) 1
  | int {m n q : ℤ} (hq : q ≠ 0) (hn : n ≠ 0) (hm : m = q * n) : Ratio (.int m) (.int n) q

/-- The product of all quotients. -/
inductive Product : List Value → List Value → ℤ → Prop
  | nil : Product [] [] 1
  | cons {a b as bs q r} (h : Ratio a b q) (hs : Product as bs r) : Product (a :: as) (b :: bs) (q * r)

variable {as bs cs : List Value} {a b c : Value} {q r : ℤ} {f : ℚ}

@[simp] lemma scalar_equal_int (m n : ℤ) : Scalar.equal (.int m) (.int n) = decide (m = n) := by
  by_cases h : m = n <;> simp [Scalar.equal, Scalar.compare?, h]

@[simp] lemma equal_int (m n : ℤ) : Value.equal (.int m) (.int n) = decide (m = n) := by
  rw [← scalar_equal_int, Value.equal] <;> simp [Value.scalar?]

lemma unlike_cons (a b : Value) (as bs : List Value) :
    unlike (a :: as) (b :: bs) = unlike as bs + if a.equal b then 0 else 1 := by
  cases h : a.equal b <;> simp [unlike, h]

lemma relate_int (m n : ℤ) : relate (.int m) (.int n) = .ok (if m = 0 ∧ n = 0 then .alike
    else if m ≠ 0 ∧ n ≠ 0 ∧ n ∣ m then .multiple (.int m) (.int n) else .incompatible) := by
  simp only [relate, Value.integer?, equal_int, Value.scalar?, Scalar.mod]
  by_cases hm : m = 0
  · by_cases hn : n = 0 <;> simp [hm, hn, eq_comm]
  · by_cases hn : n = 0 <;> simp [hm, hn, Int.dvd_iff_fmod_eq_zero]

lemma relate_str (s t : String) : relate (.str s) (.str t) = .ok (if s = t then .alike else .incompatible) := by
  simp [relate, Value.integer?, Value.equal]

lemma Product.gather_eq (h : Product as bs q) (acc : ℚ) : gather exactStep acc as bs = .ok (some (acc * q)) := by
  induction h generalizing acc with
  | nil => simp [gather]
  | cons h _ ih =>
    cases h with
    | str s => simp [gather, relate_str, ih]
    | zero => simp [gather, relate_int, ih]
    | int hq hn hm => simp [gather, relate_int, hm, hq, hn, exactStep, ih, mul_assoc]

/-- Arguments of the same kinds that have a factor go together. -/
lemma exists_product (hk : Forall₂ OneKind as bs) {acc : ℚ} (h : gather exactStep acc as bs = .ok (some f)) :
    ∃ z, Product as bs z := by
  induction hk generalizing acc with
  | nil => exact ⟨1, .nil⟩
  | cons hk _ ih =>
    cases hk with
    | int m n =>
      rw [gather, relate_int] at h
      split_ifs at h with hz hd
      · obtain ⟨rfl, rfl⟩ := hz
        obtain ⟨z, hp⟩ := ih h
        exact ⟨_, .cons .zero hp⟩
      · obtain ⟨hm, hn, q, rfl⟩ := hd
        obtain ⟨z, hp⟩ := ih h
        exact ⟨_, .cons (.int (right_ne_zero_of_mul hm) hn (mul_comm n q)) hp⟩
      · cases h
    | str s t =>
      rw [gather, relate_str] at h
      split_ifs at h with hs
      · subst hs
        obtain ⟨z, hp⟩ := ih h
        exact ⟨_, .cons (.str s) hp⟩
      · cases h

lemma Ratio.trans (h : Ratio a b q) (h' : Ratio b c r) : Ratio a c (q * r) := by
  cases h with
  | str s => cases h'; exact .str s
  | zero =>
    cases h' with
    | zero => exact .zero
    | int hr hn hz => exact absurd hz.symm (mul_ne_zero hr hn)
  | int hq hn hm =>
    cases h' with
    | zero => exact absurd rfl hn
    | int hr hk hn => exact .int (mul_ne_zero hq hr) hk (by rw [hm, hn, mul_assoc])

lemma Product.trans (h : Product as bs q) (h' : Product bs cs r) : Product as cs (q * r) := by
  induction h generalizing cs r with
  | nil => cases h'; exact .nil
  | cons h _ ih =>
    cases h' with
    | cons h' hs' =>
      rw [mul_mul_mul_comm]
      exact .cons (h.trans h') (ih hs')

lemma Product.upToSign (h : Product as bs q) (hq : IsUnit q) : Forall₂ UpToSign as bs := by
  induction h with
  | nil => exact .nil
  | cons h _ ih =>
    rw [IsUnit.mul_iff] at hq
    refine .cons ?_ (ih hq.2)
    cases h with
    | str s => exact .inl rfl
    | zero => exact .inl rfl
    | int _ _ hm =>
      rcases Int.isUnit_iff.1 hq.1 with rfl | rfl
      · exact .inl (by rw [hm, one_mul])
      · exact .inr ⟨_, by rw [hm, neg_one_mul], rfl⟩

lemma OneKind.ratio_one (h : OneKind a a) : Ratio a a 1 := by
  cases h with
  | str s => exact .str s
  | int n =>
    obtain rfl | hn := eq_or_ne n 0
    · exact .zero
    · exact .int one_ne_zero hn (one_mul n).symm

lemma product_of_upToSign (hk : Forall₂ OneKind as bs) (h : Forall₂ UpToSign as bs) :
    Product as bs ((-1) ^ unlike as bs) := by
  induction hk with
  | nil => exact .nil
  | @cons a b as bs hk _ ih =>
    rw [forall₂_cons] at h
    rw [unlike_cons, pow_add, mul_comm]
    refine .cons ?_ (ih h.2)
    obtain rfl | ⟨n, rfl, rfl⟩ := h.1
    · have heq : a.equal a := by
        cases hk with
        | int n => simp
        | str s => simp [Value.equal]
      simpa [heq] using hk.ratio_one
    · obtain rfl | hn := eq_or_ne n 0
      · simpa using .zero
      · have hne : -n ≠ n := by omega
        simpa [hne] using .int (neg_ne_zero.2 one_ne_zero) hn (neg_one_mul n).symm

lemma exactFactor_eq (key : String) (h : as.length = bs.length) : exactFactor key as bs = gather exactStep 1 as bs := by
  simp [exactFactor, Workload.factor, Value.equal, h]

/-- The factor is one exactly if the arguments agree up to an even number of signs, and factors
multiply along a chain of workloads. -/
theorem factor_one_iff_and_mul (key : String) (hab : Forall₂ OneKind as bs) :
    (exactFactor key as bs = .ok (some 1) ↔ Forall₂ UpToSign as bs ∧ Even (unlike as bs)) ∧
    ∀ cs, Forall₂ OneKind bs cs → ∀ f g, exactFactor key as bs = .ok (some f) →
      exactFactor key bs cs = .ok (some g) → exactFactor key as cs = .ok (some (f * g)) := by
  simp only [exactFactor_eq key hab.length_eq]
  have hsigns (h : Forall₂ UpToSign as bs) : gather exactStep 1 as bs = .ok (some ((-1) ^ unlike as bs)) := by
    simpa using (product_of_upToSign hab h).gather_eq 1
  refine ⟨⟨fun h => ?_, fun ⟨h, he⟩ => by rw [hsigns h, he.neg_one_pow]⟩, fun cs hbc f g hf hg => ?_⟩
  · obtain ⟨z, hp⟩ := exists_product hab h
    have hz : z = 1 := by simpa [hp.gather_eq] using h
    have hs := hp.upToSign (hz ▸ isUnit_one)
    rw [hsigns hs] at h
    exact ⟨hs, (neg_one_pow_eq_one_iff_even (by decide)).1 (Option.some.inj (Except.ok.inj h))⟩
  · rw [exactFactor_eq key hbc.length_eq] at hg
    obtain ⟨z, hp⟩ := exists_product hab hf
    obtain ⟨w, hq⟩ := exists_product hbc hg
    rw [hp.gather_eq] at hf
    rw [hq.gather_eq] at hg
    cases hf
    cases hg
    rw [exactFactor_eq key (hab.length_eq.trans hbc.length_eq), (hp.trans hq).gather_eq]
    simp

theorem matmul_factor_mul :
    exactFactor "matmul" [.str "NT", .int (-24), .int 0] [.str "NT", .int 2, .int 0] = .ok (some ((-4) * 3)) := by
  have hkinds (m n : ℤ) : Forall₂ OneKind [.str "NT", .int m, .int 0] [.str "NT", .int n, .int 0] :=
    .cons (.str _ _) (.cons (.int _ _) (.cons (.int _ _) .nil))
  exact (factor_one_iff_and_mul _ (hkinds _ 6)).2 _ (hkinds _ _) _ _ (by decide +kernel) (by decide +kernel)

/-- Two differences in sign cancel, so a factor of one does not say that the arguments are equal. -/
theorem factor_one_of_opposite : exactFactor "dense" [.int (-1), .int (-1)] [.int 1, .int 1] = .ok (some 1) ∧
    [Value.int (-1), .int (-1)] ≠ [.int 1, .int 1] :=
  ⟨by decide +kernel, by simp⟩

end TensorToolchain.Tuning
