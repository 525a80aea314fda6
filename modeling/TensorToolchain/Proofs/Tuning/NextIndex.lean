import TensorToolchain.Proofs.Tuning.KeptAnswers

/-!
# Numbering of configurations

Indices are numbers in mixed radix. Digits are read off in four places, by the two conversions
between indices and positions, for the verdicts of the shared filter and for the configuration of an
index, and all of them agree. So the valid indices are those at whose positions the shared filter
accepts the candidates, and they are as many as the space is long.
-/

namespace TensorToolchain.Tuning

open List Int Query Space

variable {knob : List ℤ} {ds : List ℕ} {es : List (String × Entity)}

/-- Positions within radices, one for each. -/
def IsPosition (ds : List ℕ) (knob : List ℤ) : Prop := List.Forall₂ (fun (d : ℕ) k => 0 ≤ k ∧ k < (d : ℤ)) ds knob

/-- The number that positions stand for, the first of which varies fastest. -/
def pointOf : List ℕ → List ℤ → ℤ
  | d :: ds, k :: ks => k + d * pointOf ds ks
  | _, _ => 0

/-- Weighing each position by the product of the radices before it gives that number. -/
lemma sum_weighted (ds : List ℕ) (h : knob.length = ds.length) :
    (knob.zipIdx.map fun p => ((ds.take p.2).prod : ℤ) * p.1).sum = pointOf ds knob := by
  induction ds generalizing knob with
  | nil =>
    obtain rfl := length_eq_zero_iff.1 h
    rfl
  | cons d ds ih =>
    obtain ⟨k, ks, rfl⟩ := exists_cons_of_length_eq_add_one h
    rw [zipIdx_cons', map_cons, sum_cons, map_map, pointOf, ← ih (by simpa using h), ← sum_map_mul_left]
    congr 1
    · simp
    · congr 1
      simp [mul_assoc]

/-- A number below the product of the radices has positions that stand for it. -/
lemma digits_eq_ok {n : ℤ} (h : 0 ≤ n) (hn : n < ds.prod) :
    ∃ knob, digits ds n = .ok knob ∧ IsPosition ds knob ∧ pointOf ds knob = n := by
  induction ds generalizing n with
  | nil => exact ⟨[], rfl, .nil, by simp at hn; simp [pointOf]; omega⟩
  | cons d ds ih =>
    rw [prod_cons, Nat.cast_mul] at hn
    have hd : 0 < (d : ℤ) := by
      refine natCast_pos.2 (pos_of_ne_zero ?_)
      rintro rfl
      omega
    obtain ⟨knob, hkn, hpos, hpn⟩ := ih (ediv_nonneg h hd.le) (Int.ediv_lt_of_lt_mul hd (by rwa [mul_comm] at hn))
    refine ⟨n % d :: knob, ?_, .cons ⟨emod_nonneg _ hd.ne', emod_lt_of_pos _ hd⟩ hpos, ?_⟩
    · have hne : (d == 0) = false := by simpa using hd.ne'
      rw [digits, hne, hkn]
      rfl
    · rw [pointOf, hpn, emod_add_mul_ediv]

lemma digits_pointOf (h : IsPosition ds knob) :
    (0 ≤ pointOf ds knob ∧ pointOf ds knob < ds.prod) ∧ digits ds (pointOf ds knob) = .ok knob := by
  induction h with
  | nil => exact ⟨⟨le_refl 0, by simp [pointOf]⟩, rfl⟩
  | @cons d k ds ks hk _ ih =>
    obtain ⟨⟨hnn, hlt⟩, hdg⟩ := ih
    have hd : 0 < (d : ℤ) := by omega
    refine ⟨⟨?_, ?_⟩, ?_⟩
    · exact add_nonneg hk.1 (mul_nonneg hd.le hnn)
    · calc k + d * pointOf ds ks < d + d * pointOf ds ks := add_lt_add_left hk.2 _
        _ = d * (pointOf ds ks + 1) := by rw [mul_add, mul_one, add_comm]
        _ ≤ d * ds.prod := mul_le_mul_of_nonneg_left (add_one_le_of_lt hlt) hd.le
    · have hne : (d == 0) = false := by simpa using hd.ne'
      rw [pointOf, digits, hne, add_mul_emod_self_left, emod_eq_of_lt hk.1 hk.2,
        add_mul_ediv_left _ _ hd.ne', ediv_eq_zero_of_lt hk.1 hk.2, zero_add, hdg]
      rfl

lemma weightedSum_eq (hfits : ds.prod < 2 ^ 63) (h : IsPosition ds knob) : weightedSum ds knob = pointOf ds knob := by
  have hpos : 0 < ds.prod := by
    obtain ⟨hnn, hlt⟩ := (digits_pointOf h).1
    omega
  rw [← sum_weighted ds h.length_eq.symm, weightedSum, sum_eq_foldl]
  congr 1
  refine map_congr_left fun p _ => ?_
  change product64 ((ds.take p.2).map ofNat) * p.1 = _
  rw [product64_of_lt]
  refine lt_of_le_of_lt (Nat.le_of_dvd hpos ?_) hfits
  exact ⟨_, (prod_take_mul_prod_drop ds p.2).symm⟩

/-! ### Settings -/

namespace Space

/-- Settings that give each knob, in order, the candidate at its position. -/
def Chosen (s : Space) (knob : List ℤ) (es : List (String × Entity)) : Prop :=
  es.map (fun e => (e.1, some e.2)) = List.zipWith (fun k (p : ℤ) => (k.1, k.2.candidates[p.toNat]?)) s.knobs knob

lemma Chosen.unique {s : Space} {es' : List (String × Entity)} (h : s.Chosen knob es) (h' : s.Chosen knob es') :
    es = es' := by
  refine map_injective_iff.2 (fun e e' he => ?_) (h.trans h'.symm)
  rw [Prod.mk.injEq, Option.some.injEq] at he
  exact Prod.ext he.1 he.2

lemma pick_eq_ok {knobs : List (String × Subspace)} {index : ℤ}
    (h : digits (knobs.map (·.2.size)) index = .ok knob) :
    ∃ es, pick index knobs = .ok es ∧ es.map (fun e => (e.1, some e.2)) =
      List.zipWith (fun k (p : ℤ) => (k.1, k.2.candidates[p.toNat]?)) knobs knob := by
  induction knobs generalizing index knob with
  | nil => exact ⟨[], rfl, rfl⟩
  | cons k knobs ih =>
    rw [map_cons, digits] at h
    split at h
    next => cases h
    next hne =>
      obtain ⟨rest, hr, hkn⟩ := bind_eq_ok.1 h
      obtain rfl := Except.ok.inj hkn
      obtain ⟨es, hes, hmap⟩ := ih hr
      have hpos : 0 < (k.2.size : ℤ) := by simpa [pos_iff_ne_zero] using hne
      have hlt : (index % k.2.size).toNat < k.2.candidates.length := by
        have := emod_lt_of_pos index hpos
        rw [Subspace.size] at *
        omega
      refine ⟨(k.1, k.2.candidates[(index % k.2.size).toNat]) :: es, ?_, ?_⟩
      · rw [pick, if_neg hne, getElem?_eq_getElem hlt, orFail_some, hes]
        rfl
      · rw [map_cons, hmap, zipWith_cons_cons, getElem?_eq_getElem hlt]

variable {s : Space}

/-- Whether the shared filter, if there is one, accepts or rejects all settings of the space. -/
def Judges (s : Space) : Prop :=
  ∀ f ∈ s.filter, ∀ knob es, IsPosition s.sizes knob → s.Chosen knob es → ∃ accepted, f es = .ok accepted

lemma exists_pick (i : ℕ) (hi : i < s.sizes.prod) :
    ∃ knob es, digits s.sizes i = .ok knob ∧ IsPosition s.sizes knob ∧ pick i s.knobs = .ok es ∧ s.Chosen knob es := by
  obtain ⟨knob, hkn, hpos, -⟩ := digits_eq_ok (natCast_nonneg i) (ofNat_lt.2 hi)
  obtain ⟨es, hes, hch⟩ := pick_eq_ok hkn
  exact ⟨knob, es, hkn, hpos, hes, hch⟩

lemma Judges.exists_valid (h : s.Judges) : ∃ valid : ℕ → Bool, ∀ i < s.sizes.prod, s.verdict i = .ok (valid i) := by
  have hvr : ∀ i, ∃ valid, i < s.sizes.prod → s.verdict i = .ok valid := by
    intro i
    by_cases hi : i < s.sizes.prod
    · obtain ⟨knob, es, -, hpos, hpc, hch⟩ := exists_pick i hi
      cases hfl : s.filter with
      | none => exact ⟨true, fun _ => by rw [verdict, hfl]⟩
      | some f =>
        obtain ⟨accepted, hac⟩ := h f hfl knob es hpos hch
        refine ⟨accepted, fun _ => ?_⟩
        rw [verdict, hfl]
        change pick i s.knobs >>= f = _
        rw [hpc, ok_bind, hac]
    · exact ⟨true, (absurd · hi)⟩
  choose valid hvl using hvr
  exact ⟨valid, hvl⟩

lemma verdict_eq_true_iff {n : ℕ} (h : pick n s.knobs = .ok es) :
    s.verdict n = .ok true ↔ ∀ f ∈ s.filter, f es = .ok true := by
  rw [verdict]
  cases s.filter with
  | none => simp
  | some f => simp [h]

end Space

/-! ### Answers -/

section Answers

variable {s : Space} (hs : s.KeptCurrent)

include hs

lemma pointToKnob_answer (point : ℤ) : (pointToKnob point).answer s = digits s.sizes point := by
  rw [pointToKnob, answer_bind, dims_answer hs, ok_bind, answer_ofResult]

lemma knobToPoint_answer (knob : List ℤ) : (knobToPoint knob).answer s = .ok (weightedSum s.sizes knob) := by
  rw [knobToPoint, answer_bind, dims_answer hs, ok_bind, answer_pure]

variable (hfits : s.sizes.prod < 2 ^ 63)

include hfits

lemma getConfiguration_answer_of_lt {i : ℕ} (hi : i < s.sizes.prod) : ∃ rejection,
    (getConfiguration i).answer s = (isIndexValid i).answer s >>= fun valid =>
      if valid then pick i s.knobs >>= fun es => .ok ⟨.int i, .null, es⟩ else .error rejection := by
  obtain ⟨kept, haft, hcr⟩ := rangeLength_keeps s rfl hs
  obtain ⟨kept', haft', -⟩ := isIndexValid_keeps i _ rfl hcr
  have hsm : (isIndexValid i).answer { s with kept } = (isIndexValid i).answer s := by
    rw [isIndexValid_answer hs, isIndexValid_answer hcr]
    rfl
  have hin : ¬ (decide ((i : ℤ) < 0) || decide (s.computedLength ≤ i)) = true := by
    rw [computedLength_eq hfits]
    simp only [Bool.or_eq_true, decide_eq_true_eq]
    omega
  refine ⟨.worded .badIndex (s!"Index does not correspond to the multi-filter condition, got index {(i : ℤ)}. " ++
    "Use is_index_valid to pre-check"), ?_⟩
  rw [getConfiguration, answer_bind, rangeLength_answer hs, ok_bind, haft]
  simp only [if_neg hin]
  rw [answer_bind]
  congr 1
  funext valid
  cases valid with
  | false => rfl
  | true =>
    rw [if_pos rfl, answer_get_bind, answer_bind, answer_ofResult, haft']
    rfl

lemma getConfiguration_answer_outside {i : ℤ} (hi : i < 0 ∨ s.sizes.prod ≤ i) :
    ∃ e, (getConfiguration i).answer s = .error e := by
  have hot : (decide (i < 0) || decide (s.computedLength ≤ i)) = true := by
    rw [computedLength_eq hfits, Bool.or_eq_true, decide_eq_true_eq, decide_eq_true_eq]
    exact hi
  rw [getConfiguration, answer_bind, rangeLength_answer hs, ok_bind]
  simp only [if_pos hot]
  exact ⟨_, rfl⟩

lemma getConfiguration_eq_ok_iff {valid : ℕ → Bool} (hvl : ∀ i < s.sizes.prod, s.verdict i = .ok (valid i)) {i : ℤ}
    {c : Configuration} : (getConfiguration i).answer s = .ok c ↔ ∃ n : ℕ, i = n ∧ n < s.sizes.prod ∧ valid n ∧
      ∃ es, pick n s.knobs = .ok es ∧ c = ⟨.int n, .null, es⟩ := by
  by_cases hi : i < 0 ∨ s.sizes.prod ≤ i
  · obtain ⟨e, he⟩ := getConfiguration_answer_outside hs hfits hi
    rw [he]
    refine iff_of_false (by simp) ?_
    omega
  · obtain ⟨n, rfl⟩ := eq_ofNat_of_zero_le (by omega : 0 ≤ i)
    have hn : n < s.sizes.prod := by omega
    obtain ⟨rejection, hget⟩ := getConfiguration_answer_of_lt hs hfits hn
    rw [hget, (answers_of_judged hs hfits hvl).1 n hn, ok_bind]
    constructor
    · intro h
      cases hjd : valid n with
      | false =>
        rw [hjd] at h
        cases h
      | true =>
        rw [hjd] at h
        obtain ⟨es, hes, hc⟩ := bind_eq_ok.1 h
        exact ⟨n, rfl, hn, hjd, es, hes, (Except.ok.inj hc).symm⟩
    · rintro ⟨m, hm, -, hjd, es, hes, rfl⟩
      obtain rfl := ofNat.inj hm
      rw [hjd, if_pos rfl, hes, ok_bind]

end Answers

/-- The indices of a space number its settings. Positions of candidates and indices of the range
stand for one another. If the shared filter judges all settings, an index has a configuration
exactly if the filter accepts the candidates at its positions, which are then the settings of the
configuration, and the length of the space is the number of these indices. If the filter refuses to
judge, an index of the range has no configuration and the space no length. -/
structure Space.IsNumbered (s : Space) : Prop where
  range : rangeLength.answer s = .ok s.sizes.prod
  knob : ∀ i : ℤ, 0 ≤ i → i < s.sizes.prod → ∃ knob, (pointToKnob i).answer s = .ok knob ∧ IsPosition s.sizes knob ∧
    (knobToPoint knob).answer s = .ok i
  point : ∀ knob, IsPosition s.sizes knob → ∃ i : ℤ, (knobToPoint knob).answer s = .ok i ∧ 0 ≤ i ∧ i < s.sizes.prod ∧
    (pointToKnob i).answer s = .ok knob
  configured : s.Judges → ∀ i c, (getConfiguration i).answer s = .ok c ↔
    0 ≤ i ∧ i < s.sizes.prod ∧ ∃ knob es, (pointToKnob i).answer s = .ok knob ∧ s.Chosen knob es ∧
      (∀ f ∈ s.filter, f es = .ok true) ∧ c = ⟨.int i, .null, es⟩
  length : s.Judges → length.answer s = .ok (Set.ncard {i : ℤ | ∃ c, (getConfiguration i).answer s = .ok c})
  refused : ∀ i < s.sizes.prod, ∀ e, s.verdict i = .error e → (∀ j < i, ∃ valid, s.verdict j = .ok valid) →
    (∀ j : ℕ, j < s.sizes.prod → (getConfiguration j).answer s = .error e) ∧ Tuning.length.answer s = .error e

/-- The range of indices of a space numbers its settings, if its length fits in a word. -/
theorem numbered_of_fits {s : Space} (hs : s.KeptCurrent) (hfits : s.sizes.prod < 2 ^ 63) : s.IsNumbered where
  range := by rw [rangeLength_answer hs, computedLength_eq hfits]
  knob i h hi := by
    obtain ⟨knob, hknob, hpos, hpoint⟩ := digits_eq_ok h hi
    refine ⟨knob, by rw [pointToKnob_answer hs, hknob], hpos, ?_⟩
    rw [knobToPoint_answer hs, weightedSum_eq hfits hpos, hpoint]
  point knob hpos := by
    obtain ⟨⟨hnonneg, hlt⟩, hdigits⟩ := digits_pointOf hpos
    refine ⟨pointOf s.sizes knob, ?_, hnonneg, hlt, by rw [pointToKnob_answer hs, hdigits]⟩
    rw [knobToPoint_answer hs, weightedSum_eq hfits hpos]
  configured hjudges i c := by
    obtain ⟨valid, hvalid⟩ := hjudges.exists_valid
    rw [getConfiguration_eq_ok_iff hs hfits hvalid]
    constructor
    · rintro ⟨n, rfl, hn, hjudged, es, hes, rfl⟩
      obtain ⟨knob, es', hknob, -, hes', hchosen⟩ := exists_pick n hn
      obtain rfl : es = es' := Except.ok.inj (hes.symm.trans hes')
      have haccepts := (verdict_eq_true_iff hes).1 (by rw [hvalid n hn, hjudged])
      exact ⟨Int.natCast_nonneg n, Int.ofNat_lt.2 hn, knob, es, by rw [pointToKnob_answer hs, hknob], hchosen, haccepts,
        rfl⟩
    · rintro ⟨h, hi, knob, es, hknob, hchosen, haccepts, rfl⟩
      obtain ⟨n, rfl⟩ := Int.eq_ofNat_of_zero_le h
      have hn : n < s.sizes.prod := Int.ofNat_lt.1 hi
      obtain ⟨knob', es', hknob', -, hes', hchosen'⟩ := exists_pick n hn
      rw [pointToKnob_answer hs, hknob'] at hknob
      obtain rfl := Except.ok.inj hknob
      obtain rfl := hchosen.unique hchosen'
      have hverdict := (verdict_eq_true_iff hes').2 haccepts
      rw [hvalid n hn] at hverdict
      exact ⟨n, rfl, hn, Except.ok.inj hverdict, es, hes', rfl⟩
  length hjudges := by
    obtain ⟨valid, hvalid⟩ := hjudges.exists_valid
    have hset : {i : ℤ | ∃ c, (getConfiguration i).answer s = .ok c} =
        Nat.cast '' (((List.range s.sizes.prod).filter valid).toFinset : Set ℕ) := by
      ext i
      simp only [Set.mem_ofPred_eq, getConfiguration_eq_ok_iff hs hfits hvalid, Set.mem_image, Finset.mem_coe,
        List.mem_toFinset, List.mem_filter, List.mem_range]
      constructor
      · rintro ⟨c, n, rfl, hn, hjudged, -⟩
        exact ⟨n, ⟨hn, hjudged⟩, rfl⟩
      · rintro ⟨n, ⟨hn, hjudged⟩, rfl⟩
        obtain ⟨-, es, -, -, hes, -⟩ := exists_pick n hn
        exact ⟨_, n, rfl, hn, hjudged, es, hes, rfl⟩
    rw [(answers_of_judged hs hfits hvalid).2, hset, Set.ncard_image_of_injective _ Nat.cast_injective,
      Set.ncard_coe_finset, List.toFinset_card_of_nodup (List.nodup_range.filter _), List.countP_eq_length_filter]
  refused i hi e he hbefore := by
    obtain ⟨hindex, hlength⟩ := answers_of_refused hs hfits hi he hbefore
    refine ⟨fun j hj => ?_, hlength⟩
    obtain ⟨rejection, hget⟩ := getConfiguration_answer_of_lt hs hfits hj
    rw [hget, hindex j hj, error_bind]

/-- Accepts settings of two knobs with different values. -/
def differing : SharedFilter := fun es => .ok <|
  match es with
  | [(_, .option (.int a)), (_, .option (.int b))] => a != b
  | _ => false

/-- Knobs with two and three values, which have to differ. -/
def twoKnobs : Space where
  knobs := [("a", .ofValues [.int 0, .int 1]), ("b", .ofValues [.int 0, .int 1, .int 2])]
  filter := some differing

lemma twoKnobs_judges : twoKnobs.Judges := by
  intro f hf knob es _ _
  obtain rfl := Option.some.inj hf
  exact ⟨_, rfl⟩

theorem twoKnobs_numbered : twoKnobs.Judges ∧ twoKnobs.sizes = [2, 3] ∧ twoKnobs.IsNumbered :=
  ⟨twoKnobs_judges, by decide, numbered_of_fits (keptCurrent_of_kept_eq rfl) (by decide)⟩

/-! ### Going from one valid index to the next

The next index within bounds is searched one by one where there is a shared filter, and computed
where there is none. Either way the valid indices within bounds are visited one after another, as
many as are counted.
-/

/-- The items of a list that lie ahead of an index, from the nearest on: after it if a step is
positive, before it if not. -/
def ahead (valids : List ℤ) (step index : ℤ) : List ℤ :=
  if 0 < step then valids.filter (index < ·) else (valids.filter (· < index)).reverse

/-- A list of the valid indices within bounds, in increasing order. -/
structure Lists (valid : ℤ → Prop) (start stop : ℤ) (valids : List ℤ) : Prop where
  sorted : valids.Pairwise (· < ·)
  mem_iff : ∀ i, i ∈ valids ↔ (start ≤ i ∧ i < stop) ∧ valid i

namespace Lists

variable {valid : ℤ → Prop} {start stop trend index : ℤ} {valids : List ℤ}

lemma mem_ahead (htrend : trend = 1 ∨ trend = -1) {i : ℤ} :
    i ∈ ahead valids trend index ↔ i ∈ valids ∧ 0 < trend * (i - index) := by
  obtain rfl | rfl := htrend
  · simp [ahead]
  · simp [ahead]

section

variable (h : Lists valid start stop valids)
include h

section

variable (htrend : trend = 1 ∨ trend = -1)
include htrend

lemma pairwise_ahead : (ahead valids trend index).Pairwise fun a b => 0 < trend * (b - a) := by
  obtain rfl | rfl := htrend
  · simpa [ahead] using h.sorted.filter _
  · simpa [ahead, pairwise_reverse] using h.sorted.filter _

lemma ahead_eq_nil (hnr : start - 1 ≤ index ∧ index ≤ stop) (hout : index + trend < start ∨ stop ≤ index + trend) :
    ahead valids trend index = [] := by
  refine eq_nil_iff_forall_not_mem.2 fun i hi => ?_
  rw [mem_ahead htrend, h.mem_iff] at hi
  obtain rfl | rfl := htrend <;> omega

/-- A step within the bounds meets the nearest item ahead if it meets a valid index. -/
lemma ahead_eq (hin : start ≤ index + trend ∧ index + trend < stop) [Decidable (valid (index + trend))] :
    ahead valids trend index = if valid (index + trend) then (index + trend) :: ahead valids trend (index + trend)
      else ahead valids trend (index + trend) := by
  have hnx : index + trend ∈ valids ↔ valid (index + trend) := by rw [h.mem_iff, and_iff_right hin]
  have hsp : ∀ i, 0 < trend * (i - index) ↔ i = index + trend ∨ 0 < trend * (i - (index + trend)) := by
    obtain rfl | rfl := htrend <;> omega
  -- lists that run in one direction are equal if they have the same items
  have : Std.Irrefl fun a b => 0 < trend * (b - a) := ⟨fun a => by simp⟩
  have : Std.Antisymm fun a b => 0 < trend * (b - a) := ⟨fun a b hab hba => by obtain rfl | rfl := htrend <;> omega⟩
  refine Pairwise.eq_of_mem_iff (h.pairwise_ahead htrend) ?_ fun i => ?_
  · split_ifs
    · exact pairwise_cons.2 ⟨fun i hi => ((mem_ahead htrend).1 hi).2, h.pairwise_ahead htrend⟩
    · exact h.pairwise_ahead htrend
  · rw [mem_ahead htrend, hsp]
    split_ifs with hvl
    · rw [mem_cons, mem_ahead htrend]
      constructor
      · rintro ⟨hi, rfl | hah⟩
        · exact .inl rfl
        · exact .inr ⟨hi, hah⟩
      · rintro (rfl | ⟨hi, hah⟩)
        · exact ⟨hnx.2 hvl, .inl rfl⟩
        · exact ⟨hi, .inr hah⟩
    · rw [mem_ahead htrend]
      refine and_congr_right fun hi => or_iff_right ?_
      rintro rfl
      exact hvl (hnx.1 hi)

end

/-- Where all indices are valid, those ahead follow one another up to the bounds. -/
lemma ahead_getElem?_of_all (hall : ∀ i, start ≤ i ∧ i < stop → valid i) (htrend : trend = 1 ∨ trend = -1)
    (count : ℕ) (hnr : start - 1 ≤ index ∧ index ≤ stop) : (ahead valids trend index)[count]? =
      if start ≤ index + (count + 1) * trend ∧ index + (count + 1) * trend < stop
      then some (index + (count + 1) * trend) else none := by
  classical
  induction count generalizing index with
  | zero =>
    simp only [Nat.cast_zero, zero_add, one_mul]
    split_ifs with hin
    · rw [h.ahead_eq htrend hin, if_pos (hall _ hin), getElem?_cons_zero]
    · rw [h.ahead_eq_nil htrend hnr (by omega), getElem?_nil]
  | succ count ih =>
    by_cases hin : start ≤ index + trend ∧ index + trend < stop
    · have hsum : index + trend + (count + 1) * trend = index + ((count + 1 : ℕ) + 1) * trend := by
        rw [Nat.cast_add, Nat.cast_one, add_mul (count + 1 : ℤ)]
        omega
      rw [h.ahead_eq htrend hin, if_pos (hall _ hin), getElem?_cons_succ, ih (by omega), hsum]
    · rw [h.ahead_eq_nil htrend hnr (by omega), getElem?_nil, if_neg]
      obtain rfl | rfl := htrend <;> omega

/-- Behind the nearest item ahead lie the others. -/
lemma ahead_of_ahead_eq_cons {next : ℤ} {rest : List ℤ} (hah : ahead valids 1 index = next :: rest) :
    ahead valids 1 next = rest := by
  have hsr := h.sorted.filter (index < ·)
  simp only [ahead, if_pos one_pos] at hah ⊢
  rw [hah, pairwise_cons] at hsr
  have hmem : next ∈ valids.filter (index < ·) := hah ▸ mem_cons_self
  have hnx : index < next := by simpa using (mem_filter.1 hmem).2
  calc valids.filter (next < ·) = (valids.filter (index < ·)).filter (next < ·) := by
        rw [filter_filter]
        refine filter_congr fun i _ => ?_
        rw [Bool.eq_iff_iff, Bool.and_eq_true, decide_eq_true_eq, decide_eq_true_eq]
        omega
    _ = rest := by rw [hah, filter_cons_of_neg (by simp), filter_eq_self.2 fun i hi => by simpa using hsr.1 i hi]

end

end Lists

def validsWithin (judged : ℕ → Bool) (start stop : ℤ) : List ℤ :=
  ((List.range' start.toNat (stop.toNat - start.toNat)).filter judged).map Nat.cast

lemma lists_validsWithin (judged : ℕ → Bool) {start : ℤ} (hst : 0 ≤ start) (stop : ℤ) :
    Lists (judged ·.toNat = true) start stop (validsWithin judged start stop) where
  sorted := pairwise_map.2 (((pairwise_lt_range' 1).filter _).imp ofNat_lt.2)
  mem_iff i := by
    simp only [validsWithin, mem_map, mem_filter, mem_range'_1]
    constructor
    · rintro ⟨n, ⟨hn, hjd⟩, rfl⟩
      exact ⟨by omega, hjd⟩
    · rintro ⟨hi, hjd⟩
      exact ⟨i.toNat, ⟨by omega, hjd⟩, toNat_of_nonneg (by omega)⟩

/-! ### Answers -/

/-- The indices that are visited from an index on, until there is no next one or for so many
questions. -/
def visits (start stop : ℤ) : ℕ → ℤ → Query (List ℤ)
  | 0, _ => return []
  | fuel + 1, index => do
    match ← nextIndex index 1 (some start) (some stop) with
    | none => return []
    | some next => return next :: (← visits start stop fuel next)

/-- Bounds within the range of a space whose shared filter judges all indices. -/
structure Bounds (s : Space) (judged : ℕ → Bool) (start stop : ℤ) : Prop where
  judged : ∀ i < s.computedLength.toNat, s.verdict i = .ok (judged i)
  nonneg : 0 ≤ start
  lt : start < stop
  le : stop ≤ s.computedLength

section Answers

variable {s : Space} {judged : ℕ → Bool} {start stop index : ℤ} (h : Bounds s judged start stop)

include h

/-- Going on from an index meets the valid indices ahead of it one after another. -/
lemma seek_answer {trend : ℤ} (htrend : trend = 1 ∨ trend = -1) (kept : Kept)
    (hcr : ({ s with kept } : Space).KeptCurrent) (fuel count : ℕ) (hnr : start - 1 ≤ index ∧ index ≤ stop)
    (hfl : (if 0 < trend then stop - index else index - start + 1) < fuel) :
    (seek trend start stop fuel count index).answer { s with kept } =
      .ok ((index :: ahead (validsWithin judged start stop) trend index)[count]?) := by
  have hls := lists_validsWithin judged h.nonneg stop
  have hst := h.le
  have hstr := h.nonneg
  induction fuel generalizing count index kept with
  | zero =>
    obtain rfl | rfl := htrend <;> simp at hfl <;> omega
  | succ fuel ih =>
    cases count with
    | zero => rfl
    | succ count =>
      rw [seek]
      by_cases hin : start ≤ index + trend ∧ index + trend < stop
      · have hout : ¬ (decide (index + trend < start) || decide (stop ≤ index + trend)) = true := by
          simp only [Bool.or_eq_true, decide_eq_true_eq]
          omega
        have hnx : (isIndexValid (index + trend)).answer { s with kept } = .ok (judged (index + trend).toNat) := by
          have hlt : (index + trend).toNat < s.computedLength.toNat := by omega
          have hvl := isIndexValid_of_judged hcr h.judged hlt
          rwa [toNat_of_nonneg (by omega)] at hvl
        obtain ⟨kept', haft, hcr'⟩ := isIndexValid_keeps _ _ rfl hcr
        have hfl' : (if 0 < trend then stop - (index + trend) else index + trend - start + 1) < fuel := by
          obtain rfl | rfl := htrend <;> simp at hfl ⊢ <;> omega
        rw [if_neg hout, answer_bind, hnx, haft, hls.ahead_eq htrend hin]
        cases judged (index + trend).toNat with
        | true => exact ih kept' hcr' count (by omega) hfl'
        | false => exact ih kept' hcr' _ (by omega) hfl'
      · have hout : (decide (index + trend < start) || decide (stop ≤ index + trend)) = true := by
          simp only [Bool.or_eq_true, decide_eq_true_eq]
          omega
        rw [if_pos hout, hls.ahead_eq_nil htrend hnr (by omega)]
        rfl

lemma nextIndex_answer (hs : s.KeptCurrent) (hnr : start - 1 ≤ index ∧ index ≤ stop) {n : ℤ} (hn : n ≠ 0) :
    (nextIndex index n (some start) (some stop)).answer s =
      .ok ((ahead (validsWithin judged start stop) n index)[n.natAbs - 1]?) := by
  have hlt := h.lt
  have hstp := h.le
  have hst := h.nonneg
  have hne : (n != 0) = true := bne_iff_ne.2 hn
  have hcnt : n.natAbs - 1 + 1 = n.natAbs := Nat.sub_add_cancel (natAbs_pos.2 hn)
  rw [nextIndex, answer_bind, answer_ofResult, hne, require_true, after_ofResult]
  dsimp only
  -- the step of the search is the sign of the number of indices to meet
  generalize htr' : (if 0 < n then 1 else -1) = trend
  have hsg : 0 < trend ↔ 0 < n := by
    rw [← htr']
    split_ifs with h <;> simp [h]
  have htrend : trend = 1 ∨ trend = -1 := by
    rw [← htr']
    split_ifs
    · exact .inl rfl
    · exact .inr rfl
  have hah (valids : List ℤ) : ahead valids n index = ahead valids trend index := by simp only [ahead, hsg]
  rw [hah]
  split
  next hz => exact absurd (Option.some.inj hz) (by omega)
  next b _ hb =>
    obtain rfl := Option.some.inj hb
    rw [pure_bind, answer_get_bind]
    cases hfl : s.filter with
    | none =>
      have hall : ∀ i : ℤ, start ≤ i ∧ i < stop → judged i.toNat := by
        intro i hi
        have hvr := h.judged i.toNat (by omega)
        rw [verdict, hfl] at hvr
        exact (Except.ok.inj hvr).symm
      have hlst : index + ((n.natAbs - 1 : ℕ) + 1) * trend = index + n := by
        obtain rfl | rfl := htrend <;> omega
      rw [(lists_validsWithin judged hst _).ahead_getElem?_of_all hall htrend _ hnr, hlst]
      simp
    | some f =>
      have hrm : (if 0 < trend then stop - index else index - start + 1) <
          (((if 0 < n then stop - index else index - start + 1).toNat + 1 : ℕ) : ℤ) := by
        omega
      have hsk := seek_answer h htrend s.kept hs _ n.natAbs hnr hrm
      rw [← hcnt, getElem?_cons_succ, hcnt] at hsk
      exact hsk
  next hno => cases hno

lemma subrangeLength_answer (hs : s.KeptCurrent) :
    (subrangeLength start stop).answer s = .ok ((validsWithin judged start stop).length : ℤ) := by
  have hlt := h.lt
  have hst := h.le
  have hstr := h.nonneg
  obtain ⟨kept, haft, hcr⟩ := rangeLength_keeps s rfl hs
  have hch : (decide (0 ≤ start) && decide (start ≤ stop) && decide (stop ≤ s.computedLength)) = true := by
    simp [hstr, hlt.le, hst]
  rw [subrangeLength, answer_bind, rangeLength_answer hs, ok_bind, answer_bind, answer_ofResult, hch,
    require_true, after_ofResult, haft, answer_get_bind, validsWithin, length_map]
  cases hfl : s.filter with
  | none =>
    have hall : (range' start.toNat (stop.toNat - start.toNat)).filter judged =
        range' start.toNat (stop.toNat - start.toNat) := by
      refine filter_eq_self.2 fun i hi => ?_
      have hvr := h.judged i (by rw [mem_range'_1] at hi; omega)
      rw [verdict, hfl] at hvr
      exact (Except.ok.inj hvr).symm
    rw [hall, length_range']
    refine congrArg Except.ok ?_
    omega
  | some f =>
    have hwt : ((List.range s.computedLength.toNat).take stop.toNat).drop start.toNat =
        range' start.toNat (stop.toNat - start.toNat) := by
      rw [take_range, range_eq_range', min_eq_left (by omega)]
      simp
    rw [hfl] at hcr
    simp only [answer_bind, verdicts_answer hcr rfl]
    change s.computedVerdicts f >>= _ = _
    rw [computedVerdicts_of_judged h.judged hfl, ok_bind, answer_pure, ← map_take, ← map_drop, hwt,
      count_map_true, countP_eq_length_filter]

lemma visits_answer (kept : Kept) (hcr : ({ s with kept } : Space).KeptCurrent)
    (hnr : start - 1 ≤ index ∧ index ≤ stop) {fuel : ℕ}
    (hfl : (ahead (validsWithin judged start stop) 1 index).length < fuel) :
    (visits start stop fuel index).answer { s with kept } = .ok (ahead (validsWithin judged start stop) 1 index) := by
  have hls := lists_validsWithin judged h.nonneg stop
  induction fuel generalizing index kept with
  | zero => exact absurd hfl (Nat.not_lt_zero _)
  | succ fuel ih =>
    have hnx := nextIndex_answer (s := { s with kept }) { h with } hcr hnr one_ne_zero
    obtain ⟨kept', haft, hcr'⟩ := nextIndex_keeps index 1 _ _ _ rfl hcr
    rw [visits, answer_bind, hnx, haft]
    cases hah : ahead _ 1 index with
    | nil => rfl
    | cons next rest =>
      have hr := hls.ahead_of_ahead_eq_cons hah
      have hmem := ((Lists.mem_ahead (.inl rfl)).1 (hah ▸ mem_cons_self)).1
      have hin := ((hls.mem_iff next).1 hmem).1
      have hnr' : start - 1 ≤ next ∧ next ≤ stop := by omega
      rw [hah, length_cons] at hfl
      have hvs := ih kept' hcr' hnr' (by rw [hr]; omega)
      change (visits start stop fuel next >>= fun l => pure _ : Query (List ℤ)).answer _ = _
      rw [answer_bind, hvs, hr]
      rfl

end Answers

/-- The valid indices within bounds, in increasing order: the next index is the nearest of them
ahead or the one after so many others, they are as many as are counted, and the next indices from
before the first bound on visit each of them once. -/
structure Space.Visits (s : Space) (start stop : ℤ) (valids : List ℤ) : Prop where
  lists : Lists (fun i => (isIndexValid i).answer s = .ok true) start stop valids
  next : ∀ index n : ℤ, start - 1 ≤ index → index ≤ stop → n ≠ 0 →
    (nextIndex index n (some start) (some stop)).answer s = .ok ((ahead valids n index)[n.natAbs - 1]?)
  length : (subrangeLength start stop).answer s = .ok valids.length
  visited : ∀ fuel, valids.length < fuel → (visits start stop fuel (start - 1)).answer s = .ok valids

/-- The valid indices within bounds of the range are visited one after another, whether there is a
shared filter or not. -/
theorem valid_indices_visited {s : Space} (hs : s.KeptCurrent) (hjudges : s.Judges) {length start stop : ℤ}
    (hlength : rangeLength.answer s = .ok length) (hstart : 0 ≤ start) (hlt : start < stop) (hstop : stop ≤ length) :
    ∃ valids, s.Visits start stop valids := by
  obtain rfl : s.computedLength = length := Except.ok.inj ((rangeLength_answer hs).symm.trans hlength)
  obtain ⟨judged, hjudged⟩ := hjudges.exists_valid
  have h : Bounds s judged start stop := by
    refine ⟨fun i hi => hjudged i ?_, hstart, hlt, hstop⟩
    have hle := s.computedLength_le
    omega
  have hlists := lists_validsWithin judged hstart stop
  have hall : ahead (validsWithin judged start stop) 1 (start - 1) = validsWithin judged start stop := by
    rw [ahead, if_pos Int.one_pos, List.filter_eq_self]
    intro i hi
    have hin := ((hlists.mem_iff i).1 hi).1
    simp only [decide_eq_true_eq]
    omega
  refine ⟨validsWithin judged start stop, ⟨hlists.sorted, fun i => ?_⟩, fun index n hlow hhigh hn => ?_,
    subrangeLength_answer h hs, fun fuel hfuel => ?_⟩
  · rw [hlists.mem_iff]
    refine and_congr_right fun hi => ?_
    have hvalid := isIndexValid_of_judged hs h.judged (by omega : i.toNat < _)
    rw [Int.toNat_of_nonneg (by omega)] at hvalid
    rw [hvalid, Except.ok.injEq]
  · exact nextIndex_answer h hs ⟨hlow, hhigh⟩ hn
  · have hvisits := visits_answer h s.kept hs (by omega : start - 1 ≤ start - 1 ∧ start - 1 ≤ stop) (by rwa [hall])
    rwa [hall] at hvisits

theorem twoKnobs_visits : rangeLength.answer twoKnobs = .ok 6 ∧ ∃ valids, twoKnobs.Visits 1 5 valids :=
  ⟨by decide +kernel, valid_indices_visited (Space.keptCurrent_of_kept_eq rfl) twoKnobs_judges (by decide +kernel)
    Int.one_nonneg (by decide) (by decide : (5 : ℤ) ≤ 6)⟩

end TensorToolchain.Tuning
