import TensorToolchain.Proofs.Tensor.NamedAxes

/-!
# Blocks and slices of tensors

Blocks of the spatial axes can be moved into the channels and back; a selection can be read and
written. Both results say which way back undoes the way there.
-/

namespace TensorToolchain.Tensor

/-! ### Blocks there and back

Moving blocks of the spatial axes into the channels and back is a change of shape, a reordering of
the axes and a change of shape, twice. The way back undoes the way there where its reordering is the
inverse one.
-/

open List Nat

section

variable {α : Type} {t u : Tensor α} {wide axes back final mid : List ℕ}

lemma reshape_eq_ok (h : volume final = t.data.size) : t.reshape final = .ok { t with shape := final } := by
  rw [reshape, if_pos (by simpa using h)]

variable [Inhabited α] {size : ℕ → ℕ} {names : List ℕ} {f : (ℕ → ℕ) → α}

lemma Shows.unique (hnd : names.Nodup) (ht : t.Shows size names f) (hu : u.Shows size names f) : t = u := by
  have hsh : t.shape = u.shape := ht.shape_eq.trans hu.shape_eq.symm
  rw [← ofFn_eq ht.wellShaped fun _ _ => rfl, hsh]
  refine ofFn_eq hu.wellShaped fun i hi => ?_
  rw [hu.shape_eq] at hi
  have hf := fits_choicesAt hnd hi
  have hmp := map_choicesAt hnd (by simpa using hi.length_eq)
  rw [← hmp, ht.get_eq _ hf, hu.get_eq _ hf]

/-! ### Reordering there and back -/

lemma map_getD_range (l : List ℕ) : (range l.length).map (l.getD · 0) = l := by
  refine ext_getElem (by simp) fun k _ hk => ?_
  rw [getElem_map, getElem_range, getD_eq_getElem _ _ hk]

lemma volume_perm {s r : List ℕ} (h : s.Perm r) : volume s = volume r := by
  induction h with
  | nil => rfl
  | cons n _ ih => rw [volume_cons, volume_cons, ih]
  | swap m n s => rw [volume_cons, volume_cons, volume_cons, volume_cons, mul_left_comm]
  | trans _ _ ih ih' => rw [ih, ih']

lemma Shows.size_data (h : t.Shows size names f) : t.data.size = volume (names.map size) := by
  rw [← h.shape_eq, h.wellShaped]

/-- The list that takes the axes of a reordering back to their numbers inverts it. -/
structure Inverts (n : ℕ) (axes back : List ℕ) : Prop where
  length_eq : axes.length = n
  lt_length : ∀ k ∈ back, k < n
  pick_eq : pick axes back = range n

namespace Inverts

variable {n : ℕ} (h : Inverts n axes back)
include h

lemma perm : axes.Perm (range n) := by
  have hsb : range n ⊆ axes := fun k hk => by
    rw [← h.pick_eq] at hk
    obtain ⟨j, hj, rfl⟩ := mem_map.1 hk
    rw [getD_eq_getElem _ _ (h.length_eq.symm ▸ h.lt_length j hj)]
    exact getElem_mem _
  exact ((subperm_of_subset nodup_range hsb).perm_of_length_le (by rw [h.length_eq, length_range])).symm

lemma eq_map : back = (range n).map axes.idxOf := by
  have hnd := h.perm.nodup_iff.2 nodup_range
  rw [← h.pick_eq, pick, map_map]
  refine (map_id'' (fun _ => rfl) back).symm.trans (map_congr_left fun k hk => ?_)
  have hk := h.length_eq.symm ▸ h.lt_length k hk
  rw [Function.comp_apply, getD_eq_getElem _ _ hk, hnd.idxOf_getElem k hk]

end Inverts

/-- A rearrangement is undone by the one that starts from the reordered shape and inverts the
reordering. -/
lemma exists_rearrange_back (ht : t.WellShaped) (hw : volume wide = volume t.shape)
    (hm : volume mid = volume t.shape) (hax : Inverts wide.length axes back) :
    ∃ u, t.rearrange wide axes mid = .ok u ∧ u.shape = mid ∧ u.rearrange (pick wide axes) back t.shape = .ok t := by
  have hpm := hax.perm
  have hnd := hpm.nodup_iff.2 nodup_range
  let s : Tensor α := { t with shape := wide }
  have hs : s.Shows (wide.getD · 0) _ fun a => s.get _ := ⟨(map_getD_range wide).symm, ht.trans hw.symm, fun _ _ => rfl⟩
  have hsm : axes.map (range wide.length).idxOf = axes := by
    refine (map_congr_left fun k hk => ?_).trans (map_id' axes)
    have hk : k < (range wide.length).length := by simpa using hpm.mem_iff.1 hk
    simpa using nodup_range.idxOf_getElem k hk
  have hp := hs.permute nodup_range hpm
  have hto := hs.transpose nodup_range hpm
  rw [hsm] at hp hto
  have hbk := hp.transpose hnd hpm.symm
  rw [(hp.permute hnd hpm.symm).unique nodup_range hs, ← hax.eq_map] at hbk
  have hsz : (s.permute axes).data.size = volume t.shape := by
    rw [hp.size_data, volume_perm (hpm.map _), map_getD_range, hw]
  have hpk : volume (pick wide axes) = (s.permute axes).data.size := hp.wellShaped.symm
  refine ⟨{ s.permute axes with shape := mid }, ?_, rfl, ?_⟩
  · rw [rearrange, reshape_eq_ok (hw.trans ht.symm), ok_bind, hto, ok_bind, reshape_eq_ok (hm.trans hsz.symm)]
  · rw [rearrange, reshape_eq_ok (t := { s.permute axes with shape := mid }) hpk, ok_bind]
    exact (congrArg (· >>= _) hbk).trans (reshape_eq_ok ht.symm)

lemma shape_of_rearrange (h : t.rearrange wide axes final = .ok u) : u.shape = final := by
  obtain ⟨s, -, p, -, h⟩ := bind₂_eq_ok.1 h
  rw [reshape] at h
  split at h
  · cases h
    rfl
  · cases h

variable {n c h w b : ℕ}

/-- Moving blocks of height and width into the channels and back gives the image back exactly if it
is square. -/
theorem depthToSpace_spaceToDepth_iff (hb : 0 < b) (ht : t.WellShaped) (hsh : t.shape = [n, c, h * b, w * b]) :
    (t.spaceToDepth b >>= fun u => u.depthToSpace b true) = .ok t ↔ h = w := by
  have hbb : 0 < b * b := Nat.mul_pos hb hb
  have hto : t.spaceToDepth b = t.rearrange [n, c, h, b, h, b] [0, 3, 5, 1, 2, 4] [n, c * (b * b), h, h] := by
    rw [spaceToDepth, fourAxes, hsh, ok_bind]
    simp [hb.ne', Nat.mul_div_cancel _ hb]
  have hbk (u : Tensor α) (hu : u.shape = [n, c * (b * b), h, h]) : u.depthToSpace b true =
      u.rearrange [n, b, b, c, h, h] [0, 3, 4, 1, 5, 2] [n, c, h * b, h * b] := by
    rw [depthToSpace, fourAxes, hu, ok_bind]
    simp [hb.ne', Nat.mul_div_cancel _ hbb]
  constructor
  · intro hok
    obtain ⟨u, hu, hok⟩ := bind_eq_ok.1 hok
    rw [hbk u (shape_of_rearrange (hto ▸ hu))] at hok
    have hfn := shape_of_rearrange hok
    rw [hsh] at hfn
    simp only [cons.injEq, and_true] at hfn
    exact (Nat.eq_of_mul_eq_mul_right hb hfn.2.2.2).symm
  · rintro rfl
    have hw : volume [n, c, h, b, h, b] = volume t.shape := by
      simp only [hsh, volume_cons, volume_nil]
      ring
    have hm : volume [n, c * (b * b), h, h] = volume t.shape := by
      simp only [hsh, volume_cons, volume_nil]
      ring
    have hinv : Inverts 6 [0, 3, 5, 1, 2, 4] [0, 3, 4, 1, 5, 2] := ⟨rfl, by simp, rfl⟩
    obtain ⟨u, hu, hm, hrd⟩ := exists_rearrange_back ht hw hm hinv
    rw [hsh] at hrd
    rw [hto, hu, ok_bind, hbk u hm]
    exact hrd

theorem depthToSpace_square_image :
    (spaceToDepth ⟨[1, 1, 2, 2], #[0, 1, 2, 3]⟩ 2 >>= fun u => u.depthToSpace 2 true : Result (Tensor ℕ)) =
      .ok ⟨[1, 1, 2, 2], #[0, 1, 2, 3]⟩ :=
  (depthToSpace_spaceToDepth_iff (h := 1) (w := 1) (b := 2) (by decide) (by decide) rfl).2 rfl

/-- An image of two rows and four columns is refused, although blocks of two by two fill it. -/
theorem spaceToDepth_wide_image :
    (spaceToDepth ⟨[1, 1, 2, 4], #[0, 1, 2, 3, 4, 5, 6, 7]⟩ 2 : Result (Tensor ℕ)) = .error (Fault.plain .badValue) := by
  decide

end

/-! ### Slices as lenses

A slice selects different positions of a tensor, one for each index of the selection. Reading what
was written there gives it back, writing what was read changes nothing, a second write hides the
first, and nothing but the selection changes.
-/

open Value (SliceRange sliceRange clampBound)

variable {α : Type} [Inhabited α] {t u v : Tensor α} {shape i j : List ℕ} {rs : List SliceRange} {r : SliceRange}
variable {n p q : ℕ} {slices : List AxisSlice} {f g : List ℕ → α}

/-! ### Ranges of positions -/

/-- The positions of a range lie on an axis, and no two of them are the same. -/
structure Within (n : ℕ) (r : SliceRange) : Prop where
  step_ne_zero : r.step ≠ 0
  inside : ∀ i < r.count, 0 ≤ r.start + (i : ℤ) * r.step ∧ r.start + (i : ℤ) * r.step < n

lemma clampBound_mem {low high bound : ℤ} (h : low ≤ high) :
    low ≤ clampBound n low high bound ∧ clampBound n low high bound ≤ high := by
  rw [clampBound]
  omega

lemma succ_mul_le_of_lt_count {d step : ℤ} {i : ℕ} (hst : 0 < step) (hi : i < (d / step).toNat) :
    ((i : ℤ) + 1) * step ≤ d :=
  (mul_le_mul_of_nonneg_right (by omega) hst.le).trans (Int.ediv_mul_le d hst.ne')

lemma within_sliceRange (start stop : Option ℤ) {step : ℤ} (h : step ≠ 0) :
    Within n (sliceRange n start stop step) := by
  rw [sliceRange]
  have hcl (o : Option ℤ) (low high d : ℤ) (hle : low ≤ high) (hd : low ≤ d ∧ d ≤ high) :
      low ≤ (o.map (clampBound n low high)).getD d ∧ (o.map (clampBound n low high)).getD d ≤ high := by
    cases o with
    | none => exact hd
    | some b => exact clampBound_mem hle
  split_ifs with hpos
  · obtain ⟨ha, -⟩ := hcl start 0 n 0 (by omega) (by omega)
    obtain ⟨-, hb⟩ := hcl stop 0 n n (by omega) (by omega)
    refine ⟨h, fun i hi => ?_⟩
    have hle := succ_mul_le_of_lt_count hpos hi
    have hnn : 0 ≤ (i : ℤ) * step := by positivity
    rw [add_mul, one_mul] at hle
    dsimp only
    omega
  · obtain ⟨-, ha⟩ := hcl start (-1) (n - 1) (n - 1) (by omega) (by omega)
    obtain ⟨hb, -⟩ := hcl stop (-1) (n - 1) (-1) (by omega) (by omega)
    refine ⟨h, fun i hi => ?_⟩
    have hle := succ_mul_le_of_lt_count (by omega) hi
    have hnn : 0 ≤ (i : ℤ) * -step := mul_nonneg (by omega) (by omega)
    rw [add_mul, one_mul, mul_neg] at hle
    rw [mul_neg] at hnn
    dsimp only
    omega

lemma placeIn_eq_some (h : Within n r) :
    placeIn r p = some q ↔ q < r.count ∧ (r.start + (q : ℤ) * r.step).toNat = p := by
  have hst := h.step_ne_zero
  simp only [placeIn, bne_iff_ne, beq_iff_eq, Bool.and_eq_true, decide_eq_true_eq]
  constructor
  · intro hs
    split at hs
    · rename_i hc
      obtain ⟨⟨⟨-, hmd⟩, hle⟩, hlt⟩ := hc
      cases hs
      have hdv := Int.ediv_mul_cancel (Int.dvd_of_emod_eq_zero hmd)
      rw [Int.toNat_of_nonneg hle, hdv]
      omega
    · cases hs
  · rintro ⟨hq, rfl⟩
    have hsub : ((r.start + (q : ℤ) * r.step).toNat : ℤ) - r.start = q * r.step := by
      have := (h.inside q hq).1
      omega
    rw [hsub, Int.mul_ediv_cancel _ hst, Int.mul_emod_left]
    simp [hst, hq]

/-! ### Selections -/

section

variable (h : Forall₂ Within shape rs)
include h

lemma inside_selected (hj : Inside j (rs.map (·.count))) : Inside (selected rs j) shape := by
  induction h generalizing j with
  | nil =>
    cases hj
    exact .nil
  | @cons n r shape rs hr _ ih =>
    obtain ⟨q, j', hq, hj', rfl⟩ := forall₂_cons_right_iff.1 hj
    have hin := hr.inside q hq
    exact .cons (by dsimp only; omega) (ih hj')

lemma placesIn_eq_some (hi : Inside i shape) :
    placesIn rs i = some j ↔ Inside j (rs.map (·.count)) ∧ selected rs j = i := by
  induction h generalizing i j with
  | nil =>
    cases hi
    simp [placesIn, selected, eq_comm]
  | @cons n r shape rs hr _ ih =>
    obtain ⟨p, i', hp, hi', rfl⟩ := forall₂_cons_right_iff.1 hi
    simp only [placesIn, Option.bind_eq_bind, Option.bind_eq_some_iff, placeIn_eq_some hr, ih hi', map_cons,
      forall₂_cons_right_iff, Option.pure_def, Option.some.injEq]
    constructor
    · rintro ⟨q, ⟨hq, rfl⟩, k, ⟨hk, rfl⟩, rfl⟩
      exact ⟨⟨q, k, hq, hk, rfl⟩, rfl⟩
    · rintro ⟨⟨q, k, hq, hk, rfl⟩, hsel⟩
      obtain ⟨hf, hr⟩ := cons.inj hsel
      exact ⟨q, ⟨hq, hf⟩, k, ⟨hk, hr⟩, rfl⟩

lemma placesIn_selected (hj : Inside j (rs.map (·.count))) : placesIn rs (selected rs j) = some j :=
  (placesIn_eq_some h (inside_selected h hj)).2 ⟨hj, rfl⟩

end

lemma exists_ranges (hlen : shape.length = slices.length) (h : ∀ s ∈ slices, s.step ≠ some 0) :
    ∃ rs, ranges shape slices = .ok rs ∧ Forall₂ Within shape rs := by
  induction shape generalizing slices with
  | nil => exact ⟨[], rfl, .nil⟩
  | cons n shape ih =>
    obtain _ | ⟨s, slices⟩ := slices
    · cases hlen
    rw [forall_mem_cons] at h
    obtain ⟨rs, hrs, hall⟩ := ih (by simpa using hlen) h.2
    have hst : s.step.getD 1 ≠ 0 := by
      cases hs : s.step with
      | none => exact one_ne_zero
      | some k =>
        rintro rfl
        exact h.1 hs
    refine ⟨_ :: rs, ?_, .cons (within_sliceRange s.start s.stop hst) hall⟩
    have hrg : s.range n = .ok (sliceRange n s.start s.stop (s.step.getD 1)) := by
      simp only [AxisSlice.range, beq_iff_eq, if_neg hst]
    rw [ranges, zip_cons_cons, mapM_cons, ← ranges, hrs]
    dsimp only
    rw [hrg]
    rfl

/-! ### Reading and writing -/

lemma slice_eq_ok (hrs : ranges t.shape slices = .ok rs) :
    t.slice slices = .ok (ofFn (rs.map (·.count)) fun j => t.get (selected rs j)) := by
  rw [slice, hrs]
  rfl

lemma spreadIndex_self (hi : Inside i shape) : spreadIndex shape i = i := by
  rw [spreadIndex, hi.length_eq, Nat.sub_self, drop_zero]
  induction hi with
  | nil => rfl
  | cons hp _ ih =>
    rw [zip_cons_cons, map_cons, ih]
    simp only [cons.injEq, and_true, beq_iff_eq, ite_eq_right_iff]
    omega

lemma spreadInto_self (hv : v.WellShaped) : v.spreadInto v.shape = .ok v := by
  have hj : joinShapes v.shape v.shape = .ok v.shape := by
    rw [joinShapes, joinReversed_eq_ok (forall₂_same.2 fun _ _ => .inl rfl), ok_bind, reverse_reverse]
    rfl
  have hsp : ofFn v.shape v.spreadGet = v := ofFn_eq hv fun i hi => by rw [spreadGet, spreadIndex_self hi]
  rw [spreadInto, rank, Nat.sub_self, take_zero, all_nil, if_pos rfl, drop_zero, spread, hj, ok_bind,
    if_pos (beq_self_eq_true _), hsp]
  rfl

/-- A tensor with the selection replaced. -/
def written (t v : Tensor α) (rs : List SliceRange) (i : List ℕ) : α :=
  match placesIn rs i with
  | some j => v.get j
  | none => t.get i

lemma setSlice_eq_ok (hrs : ranges t.shape slices = .ok rs) (hv : v.WellShaped) (hsh : v.shape = rs.map (·.count)) :
    t.setSlice slices v = .ok (ofFn t.shape (written t v rs)) := by
  rw [setSlice, hrs, ok_bind, ← hsh, spreadInto_self hv]
  rfl

section

variable (hrs : Forall₂ Within t.shape rs)
include hrs

lemma written_selected (hj : Inside j (rs.map (·.count))) : written t v rs (selected rs j) = v.get j := by
  rw [written, placesIn_selected hrs hj]

lemma slice_written (hv : v.WellShaped) (hsh : v.shape = rs.map (·.count)) :
    ofFn (rs.map (·.count)) (fun j => (ofFn t.shape (written t v rs)).get (selected rs j)) = v := by
  rw [← hsh]
  refine ofFn_eq hv fun j hj => ?_
  rw [hsh] at hj
  rw [get_ofFn (inside_selected hrs hj), written_selected hrs hj]

lemma written_slice (ht : t.WellShaped) :
    ofFn t.shape (written t (ofFn (rs.map (·.count)) fun j => t.get (selected rs j)) rs) = t := by
  refine ofFn_eq ht fun i hi => ?_
  rw [written]
  split
  · rename_i j hp
    obtain ⟨hj, rfl⟩ := (placesIn_eq_some hrs hi).1 hp
    rw [get_ofFn hj]
  · rfl

end

lemma written_written (w : Tensor α) :
    ofFn t.shape (written (ofFn t.shape (written t v rs)) w rs) = ofFn t.shape (written t w rs) := by
  refine ofFn_congr fun i hi => ?_
  rw [written, written]
  split
  · rfl
  · rename_i hp
    rw [get_ofFn hi, written, hp]

variable {begins ends strides : List ℤ}

lemma length_sliceList : (sliceList n begins ends strides).length = n := by simp [sliceList]

lemma step_sliceList (h : 0 ∉ strides) : ∀ s ∈ sliceList n begins ends strides, s.step ≠ some 0 := by
  intro s hs hzero
  obtain ⟨k, -, rfl⟩ := mem_map.1 hs
  exact h (mem_of_getElem? hzero)

/-- Slices that are read up to their ends are those that are written. -/
lemma stridedSlice_eq : t.stridedSlice begins ends strides = t.slice (sliceList t.rank begins ends strides) := by
  have hslices : ∀ i ∈ range t.rank, SliceMode.slice .stop begins[i]? ends[i]? strides[i]? =
      .ok ⟨begins[i]?, ends[i]?, strides[i]?⟩ := fun i _ => rfl
  rw [stridedSlice, mapM_eq_ok hslices]
  rfl

/-- Reading and writing the selection of begins, ends and strides, each of which may be short or
negative, are a lens. The ranges of the selection tell its shape and where its elements stand. -/
theorem stridedSlice_stridedSet_lens (ht : t.WellShaped) (hst : 0 ∉ strides) :
    ∃ rs, ranges t.shape (sliceList t.rank begins ends strides) = .ok rs ∧
      (∃ s, t.stridedSlice begins ends strides = .ok s ∧ s.shape = rs.map (·.count) ∧
        t.stridedSet s begins ends strides = .ok t) ∧
      ∀ v, v.WellShaped → v.shape = rs.map (·.count) →
        ∃ u, t.stridedSet v begins ends strides = .ok u ∧ u.stridedSlice begins ends strides = .ok v ∧
          (∀ w, w.WellShaped → w.shape = rs.map (·.count) →
            u.stridedSet w begins ends strides = t.stridedSet w begins ends strides) ∧
          ∀ i, Inside i t.shape → (∀ j, Inside j (rs.map (·.count)) → selected rs j ≠ i) → u.get i = t.get i := by
  obtain ⟨rs, hrs, hwi⟩ : ∃ rs, ranges t.shape (sliceList t.rank begins ends strides) = .ok rs ∧
      Forall₂ Within t.shape rs := exists_ranges length_sliceList.symm (step_sliceList hst)
  refine ⟨rs, hrs, ⟨_, stridedSlice_eq.trans (slice_eq_ok hrs), rfl, ?_⟩, fun v hv hsh => ⟨_, setSlice_eq_ok hrs hv hsh, ?_, ?_, ?_⟩⟩
  · rw [stridedSet, setSlice_eq_ok hrs (wellShaped_ofFn _ _) rfl, written_slice hwi ht]
  · rw [stridedSlice_eq]
    exact (slice_eq_ok (t := ofFn t.shape (written t v rs)) hrs).trans (congrArg _ (slice_written hwi hv hsh))
  · intro w hw hsh'
    have hag := setSlice_eq_ok (t := ofFn t.shape (written t v rs)) hrs hw hsh'
    exact hag.trans ((congrArg _ (written_written w)).trans (setSlice_eq_ok hrs hw hsh').symm)
  · intro i hi hout
    rw [get_ofFn hi, written]
    split
    · rename_i j hp
      obtain ⟨hj, hsel⟩ := (placesIn_eq_some hwi hi).1 hp
      exact absurd hsel (hout j hj)
    · rfl

/-- Every second row from the last one on. -/
theorem lens_everySecondRow : (0 : ℤ) ∉ [-2] ∧ ∃ s : Tensor ℕ,
    stridedSlice ⟨[3, 2], #[0, 1, 2, 3, 4, 5]⟩ [-1] [] [-2] = .ok s ∧
      stridedSet ⟨[3, 2], #[0, 1, 2, 3, 4, 5]⟩ s [-1] [] [-2] = .ok ⟨[3, 2], #[0, 1, 2, 3, 4, 5]⟩ := by
  obtain ⟨-, -, ⟨s, hs, -, hset⟩, -⟩ := @stridedSlice_stridedSet_lens ℕ _
    ⟨[3, 2], #[0, 1, 2, 3, 4, 5]⟩ [-1] [] [-2] (by decide) (by decide)
  exact ⟨by decide, s, hs, hset⟩

end TensorToolchain.Tensor
