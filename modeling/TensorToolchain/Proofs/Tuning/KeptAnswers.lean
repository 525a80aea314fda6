import TensorToolchain.Proofs.Faults
import TensorToolchain.Tuning.Space

/-!
# What a space has kept from earlier questions

The lengths, sizes and verdicts that a space keeps stand for the space as it is defined as long as
no knob is defined after a question without clearing them.
-/

namespace TensorToolchain.Tuning

open List Query Space Tuning

variable {s : Space} {i : ℕ} {e : Fault} {valid : ℕ → Bool} {f : SharedFilter}

section Query

variable {α β : Type}

def Query.answer (q : Query α) (s : Space) : Except Fault α := (q.run s).1

def Query.after (q : Query α) (s : Space) : Space := (q.run s).2

section

variable (q : Query α) (f : α → Query β) (s : Space)

lemma Query.run_bind : (q >>= f).run s = match q.answer s with
    | .ok a => (f a).run (q.after s)
    | .error e => (.error e, q.after s) := by
  refine (step_bind_run q f s).trans ?_
  rw [show q.run.run s = (q.answer s, q.after s) from rfl]
  cases q.answer s <;> rfl

lemma Query.answer_bind : (q >>= f).answer s = q.answer s >>= fun a => (f a).answer (q.after s) := by
  rw [answer, run_bind]
  cases q.answer s <;> rfl

lemma Query.after_bind : (q >>= f).after s = match q.answer s with
    | .ok a => (f a).after (q.after s)
    | .error _ => q.after s := by
  rw [after, run_bind]
  cases q.answer s <;> rfl

end

@[simp] lemma Query.answer_pure (a : α) (s : Space) : (pure a : Query α).answer s = .ok a := rfl

@[simp] lemma Query.answer_get (s : Space) : (get : Query Space).answer s = .ok s := rfl

@[simp] lemma Query.after_get (s : Space) : (get : Query Space).after s = s := rfl

@[simp] lemma Query.answer_ofResult (r : Except Fault α) (s : Space) : (ofResult r).answer s = r := by cases r <;> rfl

@[simp] lemma Query.after_ofResult (r : Except Fault α) (s : Space) : (ofResult r).after s = s := by cases r <;> rfl

@[simp] lemma Query.answer_get_bind (f : Space → Query β) (s : Space) : (get >>= f).answer s = (f s).answer s := by
  rw [answer_bind, answer_get, ok_bind, after_get]

@[simp] lemma Query.after_get_bind (f : Space → Query β) (s : Space) : (get >>= f).after s = (f s).after s := by
  rw [after_bind, answer_get, after_get]

end Query

/-! ### What is kept is current -/

namespace Space

/-- The length of the range of indices as it is computed. -/
def computedLength (s : Space) : ℤ := product64 (s.sizes.map Int.ofNat)

/-- The verdicts of a filter on all indices of the range. -/
def computedVerdicts (s : Space) (f : SharedFilter) : Except Fault (List Bool) :=
  (List.range s.computedLength.toNat).mapM fun (i : ℕ) => do f (← pick i s.knobs)

/-- Everything that is kept is what would be computed now. -/
structure KeptCurrent (s : Space) : Prop where
  rangeLength : ∀ n ∈ s.kept.rangeLength, n = s.computedLength
  dims : ∀ ds ∈ s.kept.dims, ds = s.sizes
  verdicts : ∀ vs ∈ s.kept.verdicts, ∀ f ∈ s.filter, s.computedVerdicts f = .ok vs

lemma keptCurrent_of_kept_eq (h : s.kept = {}) : s.KeptCurrent := by constructor <;> simp [h]

end Space

/-- Under a shared filter, a question changes nothing but what is kept, and keeps it current. -/
def Query.Keeps {α : Type} (filter : Option SharedFilter) (q : Query α) : Prop :=
  ∀ s : Space, s.filter = filter → s.KeptCurrent →
    ∃ kept, q.after s = { s with kept } ∧ ({ s with kept } : Space).KeptCurrent

namespace Query.Keeps

variable {α β : Type} {filter : Option SharedFilter}

lemma of_after_eq {q : Query α} (h : ∀ s, q.after s = s) : q.Keeps filter := fun s _ hs => ⟨s.kept, h s, hs⟩

lemma pure (a : α) : (Pure.pure a : Query α).Keeps filter := of_after_eq fun _ => rfl

lemma throw (e : Fault) : (MonadExcept.throw e : Query α).Keeps filter := of_after_eq fun _ => rfl

lemma ofResult (r : Except Fault α) : (ofResult r).Keeps filter := of_after_eq (after_ofResult r)

lemma bind {q : Query α} {f : α → Query β} (hq : q.Keeps filter) (hf : ∀ a, (f a).Keeps filter) :
    (q >>= f).Keeps filter := by
  intro s hfl hs
  obtain ⟨kept, haft, hcr⟩ := hq s hfl hs
  cases h : q.answer s with
  | ok a =>
    rw [after_bind, h, haft]
    exact hf a { s with kept } hfl hcr
  | error e =>
    rw [after_bind, h]
    exact ⟨kept, haft, hcr⟩

/-- A question that looks at the space first sees the shared filter. -/
lemma get_bind {f : Space → Query β} (hf : ∀ s, s.filter = filter → (f s).Keeps filter) : (get >>= f).Keeps filter := by
  intro s hfl hs
  exact hf s hfl s hfl hs

end Query.Keeps

section Questions

variable {filter : Option SharedFilter}

lemma rangeLength_answer (hs : s.KeptCurrent) : rangeLength.answer s = .ok s.computedLength := by
  rw [rangeLength, answer_get_bind]
  cases h : s.kept.rangeLength with
  | some n => rw [answer_pure, hs.rangeLength n h]
  | none => rfl

lemma rangeLength_keeps : rangeLength.Keeps filter := by
  intro s _ hs
  rw [rangeLength, after_get_bind]
  cases h : s.kept.rangeLength with
  | some n => exact ⟨s.kept, rfl, hs⟩
  | none =>
    refine ⟨{ s.kept with rangeLength := some s.computedLength }, rfl, ?_, hs.dims, hs.verdicts⟩
    intro n hn
    exact (Option.some.inj hn).symm

lemma dims_answer (hs : s.KeptCurrent) : dims.answer s = .ok s.sizes := by
  rw [dims, answer_get_bind]
  cases h : s.kept.dims with
  | some ds => rw [answer_pure, hs.dims ds h]
  | none => rfl

lemma dims_keeps : dims.Keeps filter := by
  intro s _ hs
  rw [dims, after_get_bind]
  cases h : s.kept.dims with
  | some ds => exact ⟨s.kept, rfl, hs⟩
  | none =>
    refine ⟨{ s.kept with dims := some s.sizes }, rfl, hs.rangeLength, ?_, hs.verdicts⟩
    intro ds hds
    exact (Option.some.inj hds).symm

lemma verdicts_answer (hs : s.KeptCurrent) (hf : s.filter = some f) : (verdicts f).answer s = s.computedVerdicts f := by
  rw [verdicts, answer_get_bind]
  cases h : s.kept.verdicts with
  | some vs => rw [answer_pure, hs.verdicts vs h f hf]
  | none =>
    obtain ⟨kept, haft, -⟩ := rangeLength_keeps s hf hs
    rw [answer_bind, rangeLength_answer hs, ok_bind, answer_get_bind, answer_bind, answer_ofResult, haft]
    change s.computedVerdicts f >>= _ = _
    cases s.computedVerdicts f <;> rfl

lemma verdicts_keeps : (verdicts f).Keeps (some f) := by
  refine .get_bind fun s _ => ?_
  cases s.kept.verdicts with
  | some vs => exact .pure vs
  | none =>
    -- the length is kept first, and then the verdicts on all of its range
    intro t hf ht
    obtain ⟨kept, haft, hcr⟩ := rangeLength_keeps t hf ht
    rw [after_bind, rangeLength_answer ht, haft]
    change ∃ kept', (ofResult (t.computedVerdicts f) >>= _ : Query (List Bool)).after _ = _ ∧ _
    cases hvr : t.computedVerdicts f with
    | ok vs =>
      refine ⟨{ kept with verdicts := some vs }, rfl, hcr.rangeLength, hcr.dims, ?_⟩
      intro us hus g hg
      rw [← Option.some.inj hus, ← Option.some.inj (hf.symm.trans hg)]
      exact hvr
    | error e => exact ⟨kept, rfl, hcr⟩

lemma length_keeps : length.Keeps filter := by
  refine .get_bind fun s hfl => ?_
  subst hfl
  cases s.filter with
  | none => exact .bind rangeLength_keeps fun n => .bind (.ofResult _) .pure
  | some f => exact .bind verdicts_keeps fun vs => .pure _

lemma isIndexValid_keeps (index : ℤ) : (isIndexValid index).Keeps filter := by
  refine .bind rangeLength_keeps fun n => .bind (.ofResult _) fun _ => .get_bind fun s hfl => ?_
  subst hfl
  cases s.filter with
  | none => exact .pure true
  | some f => exact .bind verdicts_keeps fun vs => .ofResult _

lemma subrangeLength_keeps (start stop : ℤ) : (subrangeLength start stop).Keeps filter := by
  refine .bind rangeLength_keeps fun n => .bind (.ofResult _) fun _ => .get_bind fun s hfl => ?_
  subst hfl
  cases s.filter with
  | none => exact .pure _
  | some f => exact .bind verdicts_keeps fun vs => .pure _

lemma seek_keeps (trend start stop : ℤ) (fuel count : ℕ) (index : ℤ) :
    (seek trend start stop fuel count index).Keeps filter := by
  induction fuel generalizing count index with
  | zero =>
    cases count with
    | zero => exact .pure _
    | succ count => exact .pure _
  | succ fuel ih =>
    cases count with
    | zero => exact .pure _
    | succ count =>
      rw [seek]
      split
      · exact .pure none
      · refine .bind (isIndexValid_keeps _) fun valid => ?_
        split
        · exact ih count _
        · exact ih _ _

lemma nextIndex_keeps (index n : ℤ) (start stop : Option ℤ) : (nextIndex index n start stop).Keeps filter := by
  refine .bind (.ofResult _) fun _ => ?_
  dsimp only
  split
  all_goals
    refine .bind (by first | exact rangeLength_keeps | exact .pure _) fun stop => ?_
    refine .get_bind fun s hfl => ?_
    rw [hfl]
    cases filter with
    | none => exact .pure _
    | some f => exact seek_keeps _ _ _ _ _ _

lemma pointToKnob_keeps (point : ℤ) : (pointToKnob point).Keeps filter := .bind dims_keeps fun _ => .ofResult _

lemma knobToPoint_keeps (knob : List ℤ) : (knobToPoint knob).Keeps filter := .bind dims_keeps .pure

lemma getConfiguration_keeps (index : ℤ) : (getConfiguration index).Keeps filter := by
  refine .bind rangeLength_keeps fun n => ?_
  split
  · exact .throw _
  · refine .bind (isIndexValid_keeps index) fun valid => ?_
    split
    · exact .get_bind fun s _ => .bind (.ofResult _) fun es => .pure _
    · exact .throw _

lemma spaceText_keeps : spaceText.Keeps filter :=
  .bind length_keeps fun _ => .bind rangeLength_keeps fun _ => .get_bind fun _ _ => .pure _

end Questions

/-! ### Calls on a space -/

/-- A call on a space: a definition of a knob, a shared filter, or a question. -/
inductive Call where
  | define (name : String) (filtered : Bool) (outputs : Except Fault ℕ) (knob : Except Fault Subspace)
  | setFilter (filter : Option SharedFilter)
  | rangeLength
  | dims
  | length
  | isIndexValid (index : ℤ)
  | subrangeLength (start stop : ℤ)
  | nextIndex (index n : ℤ) (start stop : Option ℤ)
  | pointToKnob (point : ℤ)
  | knobToPoint (knob : List ℤ)
  | getConfiguration (index : ℤ)
  | spaceText

def Space.call (s : Space) : Call → Space
  | .define name filtered outputs knob => (define name filtered outputs knob).after s
  | .setFilter filter => s.setFilter filter
  | .rangeLength => rangeLength.after s
  | .dims => dims.after s
  | .length => length.after s
  | .isIndexValid index => (isIndexValid index).after s
  | .subrangeLength start stop => (subrangeLength start stop).after s
  | .nextIndex index n start stop => (nextIndex index n start stop).after s
  | .pointToKnob point => (pointToKnob point).after s
  | .knobToPoint knob => (knobToPoint knob).after s
  | .getConfiguration index => (getConfiguration index).after s
  | .spaceText => spaceText.after s

/-- Whether every definition without a filter comes before the first question since a call that
cleared what is kept; `asked` tells whether there was a question before the first call. -/
def timely : Bool → List Call → Bool
  | _, [] => true
  | asked, .define _ filtered _ _ :: calls => (filtered || !asked) && timely false calls
  | _, .setFilter _ :: calls => timely false calls
  | _, _ :: calls => timely true calls

lemma kept_define (name : String) {filtered : Bool} (outputs : Except Fault ℕ) (knob : Except Fault Subspace)
    (h : filtered = false → s.kept = {}) : ((define name filtered outputs knob).after s).kept = {} := by
  have hr : ∀ t : Space, t.kept = {} → ((define name false outputs knob).after t).kept = {} := by
    intro t ht
    change ((get >>= _ : Query ℕ).after t).kept = _
    rw [after_get_bind]
    split
    · rw [after_ofResult, ht]
    · cases knob with
      | error e => exact ht
      | ok k =>
        rw [after_bind, answer_ofResult]
        dsimp only
        split
        · cases t.entity? name with
          | none => exact ht
          | some e => exact ht
        · exact ht
  cases filtered with
  | false => exact hr s (h rfl)
  | true => exact hr s.clear rfl

/-- After timely calls everything that is kept is current; nothing is kept before a question. -/
lemma keptCurrent_of_timely {calls : List Call} {asked : Bool} {s : Space} (hs : s.KeptCurrent)
    (hun : asked = false → s.kept = {}) (htm : timely asked calls) : (calls.foldl call s).KeptCurrent := by
  induction calls generalizing asked s with
  | nil => exact hs
  | cons call calls ih =>
    -- a question keeps what is kept current, and after it something may be kept
    have hqs : ∀ {α : Type} (q : Query α), q.Keeps s.filter → q.after s = s.call call →
        timely true calls → (calls.foldl .call (s.call call)).KeptCurrent := by
      intro α q hq haft hr
      obtain ⟨kept, hsm, hcr⟩ := hq s rfl hs
      rw [← haft, hsm]
      exact @ih true _ hcr nofun hr
    cases call with
    | define name filtered outputs knob =>
      rw [timely, Bool.and_eq_true, Bool.or_eq_true, Bool.not_eq_true'] at htm
      have hkp : (s.call (.define name filtered outputs knob)).kept = {} := kept_define name outputs knob fun hpl =>
          hun (htm.1.resolve_left (by rw [hpl]; exact Bool.false_ne_true))
      exact ih (keptCurrent_of_kept_eq hkp) (fun _ => hkp) htm.2
    | setFilter filter => exact ih (keptCurrent_of_kept_eq rfl) (fun _ => rfl) htm
    | rangeLength => exact hqs _ rangeLength_keeps rfl htm
    | dims => exact hqs _ dims_keeps rfl htm
    | length => exact hqs _ length_keeps rfl htm
    | isIndexValid index => exact hqs _ (isIndexValid_keeps index) rfl htm
    | subrangeLength start stop => exact hqs _ (subrangeLength_keeps start stop) rfl htm
    | nextIndex index n start stop => exact hqs _ (nextIndex_keeps index n start stop) rfl htm
    | pointToKnob point => exact hqs _ (pointToKnob_keeps point) rfl htm
    | knobToPoint knob => exact hqs _ (knobToPoint_keeps knob) rfl htm
    | getConfiguration index => exact hqs _ (getConfiguration_keeps index) rfl htm
    | spaceText => exact hqs _ spaceText_keeps rfl htm

/-! ### The answers -/

namespace Space

/-- The verdict of the shared filter on the configuration of an index. -/
def verdict (s : Space) (index : ℕ) : Except Fault Bool :=
  match s.filter with
  | none => .ok true
  | some f => do f (← pick index s.knobs)

/-- The answers are those of the space as it is defined. The length of the range is the product of
the numbers of candidates. An index of the range is valid if the shared filter accepts it, and the
length of the space is the number of valid indices; if the shared filter refuses to judge an index,
both are refused in the same way. Outside of the range no index is judged. -/
structure AnswersAsDefined (s : Space) : Prop where
  rangeLength : rangeLength.answer s = .ok s.sizes.prod
  dims : dims.answer s = .ok s.sizes
  judged : ∀ valid : ℕ → Bool, (∀ i < s.sizes.prod, s.verdict i = .ok (valid i)) →
    (∀ i < s.sizes.prod, (isIndexValid i).answer s = .ok (valid i)) ∧
      length.answer s = .ok ((List.range s.sizes.prod).countP valid)
  refused : ∀ i < s.sizes.prod, ∀ e, s.verdict i = .error e → (∀ j < i, ∃ valid, s.verdict j = .ok valid) →
    (∀ j < s.sizes.prod, (isIndexValid j).answer s = .error e) ∧ length.answer s = .error e
  outside : ∀ i : ℤ, i < 0 ∨ s.sizes.prod ≤ i → (isIndexValid i).answer s = .error (.worded .failedCheck "")

lemma product64_eq (ns : List ℤ) : product64 ns = wrap64 ns.prod := by
  suffices hfl : ∀ p : ℤ, ns.foldl (fun p n => wrap64 (p * n)) (wrap64 p) = wrap64 (p * ns.prod) by
    have hone := hfl 1
    rwa [one_mul] at hone
  induction ns with
  | nil => simp
  | cons n ns ih =>
    intro p
    have hwr : wrap64 (wrap64 p * n) = wrap64 (p * n) := Int.bmod_mul_bmod
    rw [foldl_cons, hwr, ih, prod_cons, mul_assoc]

lemma product64_natCast (ns : List ℕ) : product64 (ns.map Int.ofNat) = wrap64 ns.prod := by
  rw [product64_eq]
  exact congrArg wrap64 (Nat.cast_list_prod ns).symm

lemma product64_of_lt {ns : List ℕ} (h : ns.prod < 2 ^ 63) : product64 (ns.map Int.ofNat) = ns.prod := by
  rw [product64_natCast]
  generalize ns.prod = n at h
  refine Int.bmod_eq_of_le ?_ ?_
  · norm_num
  · norm_num
    omega

lemma computedLength_eq (hfits : s.sizes.prod < 2 ^ 63) : s.computedLength = s.sizes.prod :=
  product64_of_lt hfits

lemma computedLength_le (s : Space) : s.computedLength ≤ s.sizes.prod := by
  rw [computedLength, product64_natCast, wrap64, Int.bmod_def]
  generalize s.sizes.prod = n
  norm_num
  omega

end Space

section Answers

lemma isIndexValid_answer (hs : s.KeptCurrent) (index : ℤ) : (isIndexValid index).answer s =
    require (0 ≤ index && index < s.computedLength) .failedCheck "" >>= fun _ =>
      s.filter.elim (.ok true) fun f => s.computedVerdicts f >>= fun vs => orFail .badIndex vs[index.toNat]? := by
  obtain ⟨kept, haft, hcr⟩ := rangeLength_keeps s rfl hs
  rw [isIndexValid, answer_bind, rangeLength_answer hs, ok_bind, answer_bind, answer_ofResult, after_ofResult, haft]
  congr 1
  rw [answer_get_bind]
  cases hfl : s.filter with
  | none => rfl
  | some f =>
    rw [hfl] at hcr
    simp only [answer_bind, answer_ofResult, verdicts_answer hcr rfl]
    rfl

lemma length_answer_of_none (hs : s.KeptCurrent) (hfl : s.filter = none)
    (hlen : 0 ≤ s.computedLength) : length.answer s = .ok s.computedLength := by
  rw [length, answer_get_bind, hfl]
  rw [answer_bind, rangeLength_answer hs, ok_bind, answer_bind, answer_ofResult, decide_eq_true hlen, demand_true]
  rfl

lemma length_answer_of_some (hs : s.KeptCurrent) (hfl : s.filter = some f) :
    length.answer s = s.computedVerdicts f >>= fun vs => .ok (vs.count true : ℤ) := by
  rw [length, answer_get_bind, hfl]
  rw [answer_bind, verdicts_answer hs hfl]
  rfl

lemma computedVerdicts_eq (hfl : s.filter = some f) :
    s.computedVerdicts f = (List.range s.computedLength.toNat).mapM s.verdict := by
  have hvr : s.verdict = fun i : ℕ => pick i s.knobs >>= f := by
    funext i
    rw [verdict, hfl]
  rw [computedVerdicts, hvr]

lemma isIndexValid_answer_of_lt (hs : s.KeptCurrent) (hi : i < s.computedLength.toNat) : (isIndexValid i).answer s =
      s.filter.elim (.ok true) fun f => s.computedVerdicts f >>= fun vs => orFail .badIndex vs[i]? := by
  have hch : (decide (0 ≤ (i : ℤ)) && decide ((i : ℤ) < s.computedLength)) = true := by
    rw [Bool.and_eq_true, decide_eq_true_eq, decide_eq_true_eq]
    omega
  rw [isIndexValid_answer hs, hch, require_true, ok_bind, Int.toNat_natCast]

lemma computedVerdicts_of_judged (hvl : ∀ i < s.computedLength.toNat, s.verdict i = .ok (valid i))
    (hfl : s.filter = some f) : s.computedVerdicts f = .ok ((List.range s.computedLength.toNat).map valid) := by
  rw [computedVerdicts_eq hfl]
  exact mapM_eq_ok fun i hi => hvl i (mem_range.1 hi)

lemma count_map_true (valid : ℕ → Bool) (l : List ℕ) : (l.map valid).count true = l.countP valid := by
  rw [count, countP_map]
  congr 1
  funext i
  simp

section

variable (hs : s.KeptCurrent)
include hs

lemma isIndexValid_of_judged (hvl : ∀ i < s.computedLength.toNat, s.verdict i = .ok (valid i))
    (hi : i < s.computedLength.toNat) : (isIndexValid i).answer s = .ok (valid i) := by
  rw [isIndexValid_answer_of_lt hs hi]
  cases hfl : s.filter with
  | none =>
    rw [← hvl i hi, verdict, hfl]
    rfl
  | some f =>
    rw [Option.elim_some, computedVerdicts_of_judged hvl hfl]
    simp [hi]

section

variable (hfits : s.sizes.prod < 2 ^ 63)
include hfits

lemma isIndexValid_answer_outside {i : ℤ} (hi : i < 0 ∨ s.sizes.prod ≤ i) :
    (isIndexValid i).answer s = .error (.worded .failedCheck "") := by
  have hch : (decide (0 ≤ i) && decide (i < s.computedLength)) = false := by
    rw [computedLength_eq hfits]
    simp only [Bool.and_eq_false_iff, decide_eq_false_iff_not]
    omega
  rw [isIndexValid_answer hs, hch]
  rfl

lemma answers_of_judged (hvl : ∀ i < s.sizes.prod, s.verdict i = .ok (valid i)) :
    (∀ i < s.sizes.prod, (isIndexValid i).answer s = .ok (valid i)) ∧
      length.answer s = .ok ((List.range s.sizes.prod).countP valid) := by
  have hlen := computedLength_eq hfits
  have hrn : s.computedLength.toNat = s.sizes.prod := by rw [hlen, Int.toNat_natCast]
  rw [← hrn] at hvl ⊢
  refine ⟨fun i hi => isIndexValid_of_judged hs hvl hi, ?_⟩
  cases hfl : s.filter with
  | none =>
    have hall : (range s.computedLength.toNat).countP valid = s.computedLength.toNat := by
      refine (countP_eq_length.2 fun i hi => ?_).trans length_range
      have hi := hvl i (mem_range.1 hi)
      rw [verdict, hfl] at hi
      exact (Except.ok.inj hi).symm
    have hnn : 0 ≤ s.computedLength := by rw [hlen]; exact Int.natCast_nonneg _
    rw [length_answer_of_none hs hfl hnn, hall, Int.toNat_of_nonneg hnn]
  | some f => rw [length_answer_of_some hs hfl, computedVerdicts_of_judged hvl hfl, ok_bind, count_map_true]

/-- Answers where an index is the first that the shared filter refuses to judge. -/
lemma answers_of_refused (hi : i < s.sizes.prod) (he : s.verdict i = .error e)
    (hbef : ∀ j < i, ∃ valid, s.verdict j = .ok valid) :
    (∀ j < s.sizes.prod, (isIndexValid j).answer s = .error e) ∧ length.answer s = .error e := by
  cases hfl : s.filter with
  | none =>
    rw [verdict, hfl] at he
    cases he
  | some f =>
    have hvr : s.computedVerdicts f = .error e := by
      obtain ⟨n, hn⟩ := Nat.exists_eq_add_of_lt hi
      have hsp : range s.sizes.prod = range i ++ i :: (range n).map (i + 1 + ·) := by
        rw [hn, add_right_comm, range_add, range_succ, append_assoc]
        rfl
      rw [computedVerdicts_eq hfl, computedLength_eq hfits, Int.toNat_natCast, hsp]
      exact mapM_eq_error (fun j hj => hbef j (mem_range.1 hj)) he
    constructor
    · intro j hj
      have hj' : j < s.computedLength.toNat := by rwa [computedLength_eq hfits]
      rw [isIndexValid_answer_of_lt hs hj', hfl, Option.elim_some, hvr, error_bind]
    · rw [length_answer_of_some hs hfl, hvr, error_bind]

end

end

end Answers

/-- A space answers as it is defined if no knob was defined without a filter after a question that
nothing has cleared, and if the length of its range fits in a word. -/
theorem answers_of_timely {start : Space} (hstart : start.kept = {}) {calls : List Call}
    (htimely : timely false calls = true)
    (hfits : (calls.foldl Space.call start).sizes.prod < 2 ^ 63) :
    (calls.foldl Space.call start).AnswersAsDefined := by
  have hs := keptCurrent_of_timely (Space.keptCurrent_of_kept_eq hstart) (fun _ => hstart) htimely
  refine ⟨?_, dims_answer hs, ?_, ?_, ?_⟩
  · rw [rangeLength_answer hs, Space.computedLength_eq hfits]
  · exact fun valid hvalid => answers_of_judged hs hfits hvalid
  · exact fun i hi e he hbefore => answers_of_refused hs hfits hi he hbefore
  · exact fun i hi => isIndexValid_answer_outside hs hfits hi

/-- The definition, without a filter, of a knob with so many candidates. -/
def defineValues (name : String) (n : ℕ) : Call :=
  .define name false (.ok 0) (.ok (.ofValues ((List.range n).map (.int ·))))

/-- Two knobs, with a question and a shared filter between their definitions. -/
def twoTurns : Space := [defineValues "a" 2, .length, .setFilter none, defineValues "b" 3, .dims].foldl call {}

theorem twoTurns_answers : timely false [defineValues "a" 2, .length, .setFilter none,
    defineValues "b" 3, .dims] = true ∧ twoTurns.sizes = [2, 3] ∧ twoTurns.AnswersAsDefined :=
  ⟨by decide, by decide +kernel, answers_of_timely rfl (by decide) (by decide +kernel)⟩

/-- Two knobs, with questions between their definitions. -/
def lateKnob : Space := [defineValues "a" 2, .length, .dims, defineValues "b" 3].foldl call {}

def manyKnobs : Space := ((List.range 63).map fun i => defineValues (toString i) 2).foldl call {}

/-- A knob that is defined after a question is not counted, and a range that does not fit in a word
has a negative length. -/
theorem lateKnob_manyKnobs_miscounted :
    ¬ lateKnob.AnswersAsDefined ∧ ¬ manyKnobs.AnswersAsDefined ∧
    (lateKnob.sizes = [2, 3] ∧ rangeLength.answer lateKnob = .ok 2 ∧
      dims.answer lateKnob = .ok [2] ∧ length.answer lateKnob = .ok 2 ∧
      (isIndexValid 2).answer lateKnob = .error (.worded .failedCheck "")) ∧
    (manyKnobs.sizes = List.replicate 63 2 ∧ rangeLength.answer manyKnobs = .ok (-2 ^ 63) ∧
      (isIndexValid 0).answer manyKnobs = .error (.worded .failedCheck "")) :=
  ⟨fun h => absurd h.dims (by decide +kernel), fun h => absurd h.rangeLength (by decide +kernel), by decide +kernel⟩

end TensorToolchain.Tuning
