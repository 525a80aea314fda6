import TensorToolchain.Proofs.Faults
import TensorToolchain.Tensor.Slice

/-!
# Tensors with named axes

A tensor over a list of names shows a function of what is chosen at the names. Reordering the axes
and spreading the tensor over more names do not change the function, and a part of the tensor shows
it with the choices at the leading names fixed.
-/

namespace TensorToolchain.Tensor

open List Nat

/-! ### Indices and positions

The elements of a tensor stand row by row. The position of an index and the index at a position are
inverse to each other, as long as the index lies in the shape, so that a tensor that is built from a
function on indices reads as this function.
-/

variable {α : Type} {k : ℕ}

abbrev Inside (index shape : List ℕ) : Prop := List.Forall₂ (· < ·) index shape

variable {shape index : List ℕ}

lemma contains_iff : contains shape index ↔ Inside index shape := by
  induction shape generalizing index with
  | nil => cases index <;> simp [contains]
  | cons n shape ih => cases index <;> simp [contains, ih]

/-! ### Positions -/

@[simp] lemma volume_nil : volume [] = 1 := rfl

@[simp] lemma volume_cons (n : ℕ) (shape : List ℕ) : volume (n :: shape) = n * volume shape := rfl

lemma volume_append (s r : List ℕ) : volume (s ++ r) = volume s * volume r := by
  induction s with
  | nil => simp
  | cons n s ih => simp [ih, mul_assoc]

lemma volume_pos (h : ∀ n ∈ shape, 0 < n) : 0 < volume shape := by
  induction shape with
  | nil => exact one_pos
  | cons n shape ih => exact mul_pos (h n mem_cons_self) (ih fun m hm => h m (mem_cons_of_mem n hm))

@[simp] lemma offset_nil : offset shape [] = 0 := by cases shape <;> rfl

@[simp] lemma offset_cons (n i : ℕ) (shape index : List ℕ) :
    offset (n :: shape) (i :: index) = i * volume shape + offset shape index := rfl

lemma offset_lt (h : Inside index shape) : offset shape index < volume shape := by
  induction h with
  | nil => exact one_pos
  | @cons i n index shape hi _ ih =>
    calc i * volume shape + offset shape index < i * volume shape + volume shape := by omega
      _ = (i + 1) * volume shape := by ring
      _ ≤ n * volume shape := mul_le_mul_right _ hi

lemma indexAt_offset (h : Inside index shape) : indexAt shape (offset shape index) = index := by
  induction h with
  | nil => rfl
  | @cons i n index shape hi hr ih =>
    have hlt := offset_lt hr
    have hpos : 0 < volume shape := lt_of_le_of_lt (zero_le _) hlt
    rw [offset_cons, indexAt, add_comm, add_mul_div_right _ _ hpos,
      div_eq_of_lt hlt, zero_add, add_mul_mod_self_right, mod_eq_of_lt hlt, ih]

lemma inside_indexAt (h : k < volume shape) : Inside (indexAt shape k) shape := by
  induction shape generalizing k with
  | nil => exact Forall₂.nil
  | cons n shape ih =>
    have hpos : 0 < volume shape := pos_of_ne_zero fun e => by simp [e] at h
    exact Forall₂.cons ((div_lt_iff_lt_mul hpos).2 h) (ih (mod_lt _ hpos))

lemma offset_indexAt (h : k < volume shape) : offset shape (indexAt shape k) = k := by
  induction shape generalizing k with
  | nil =>
    rw [volume_nil] at h
    rw [indexAt, offset_nil]
    omega
  | cons n shape ih =>
    have hpos : 0 < volume shape := pos_of_ne_zero fun e => by simp [e] at h
    rw [indexAt, offset_cons, ih (mod_lt _ hpos), div_add_mod']

lemma offset_div_mod (h : Inside index shape) {axis : ℕ} (hax : axis < shape.length) :
    offset shape index / volume (shape.drop (axis + 1)) % shape.getD axis 0 = index.getD axis 0 := by
  induction h generalizing axis with
  | nil => exact absurd hax (not_lt_zero _)
  | @cons i n index shape hi hr ih =>
    have hlt := offset_lt hr
    have hpos : 0 < volume shape := lt_of_le_of_lt (zero_le _) hlt
    cases axis with
    | zero =>
      rw [offset_cons, drop_succ_cons, drop_zero, add_comm,
        add_mul_div_right _ _ hpos, div_eq_of_lt hlt, zero_add, getD_cons_zero, getD_cons_zero, mod_eq_of_lt hi]
    | succ axis =>
      have hax : axis < shape.length := by simpa using hax
      rw [drop_succ_cons, getD_cons_succ, getD_cons_succ, ← ih hax, offset_cons]
      -- the leading axis contributes a multiple of all that follows
      have hsp : volume shape = volume (shape.take axis) * (shape.getD axis 0 * volume (shape.drop (axis + 1))) := by
        rw [← volume_cons, getD_eq_getElem _ _ hax, ← volume_append, getElem_cons_drop, take_append_drop]
      have hdr : 0 < volume (shape.drop (axis + 1)) := by
        refine pos_of_ne_zero fun e => ?_
        rw [hsp, e] at hpos
        simp at hpos
      have hmul : i * volume shape = volume (shape.drop (axis + 1)) *
          (shape.getD axis 0 * (i * volume (shape.take axis))) := by
        rw [hsp]
        ring
      rw [hmul, mul_add_div hdr, mul_add_mod]

lemma length_indices (shape : List ℕ) : (indices shape).length = volume shape := by
  induction shape with
  | nil => rfl
  | cons n shape ih => simp [indices, length_flatMap, ih]

lemma indices_eq (shape : List ℕ) : indices shape = (List.range (volume shape)).map (indexAt shape) := by
  induction shape with
  | nil => rfl
  | cons n shape ih =>
    rw [indices, volume_cons, ih]
    induction n with
    | zero => simp
    | succ n ihn =>
      rw [range_succ, flatMap_append, succ_mul, range_add, map_append,
        flatMap_cons, flatMap_nil, append_nil, map_map, map_map]
      congr 1
      refine map_congr_left fun k hk => ?_
      have hk : k < volume shape := mem_range.1 hk
      have hpos : 0 < volume shape := lt_of_le_of_lt (zero_le _) hk
      rw [Function.comp_apply, Function.comp_apply, indexAt, add_comm,
        add_mul_div_right _ _ hpos, div_eq_of_lt hk, zero_add, add_mul_mod_self_right, mod_eq_of_lt hk]

/-! ### Elements -/

lemma wellShaped_ofFn (shape : List ℕ) (f : List ℕ → α) : (ofFn shape f).WellShaped := by
  rw [WellShaped, ofFn, size_toArray, length_map, length_indices]

lemma ofFn_congr {f g : List ℕ → α} (h : ∀ i, Inside i shape → f i = g i) : ofFn shape f = ofFn shape g := by
  have hmap : (indices shape).map f = (indices shape).map g := by
    rw [indices_eq, map_map, map_map]
    exact map_congr_left fun k hk => h _ (inside_indexAt (mem_range.1 hk))
  rw [ofFn, ofFn, hmap]

variable [Inhabited α]

lemma get_mk (h : Inside index shape) (f : ℕ → α) :
    get ⟨shape, ((List.range (volume shape)).map f).toArray⟩ index = f (offset shape index) := by
  have hlt := offset_lt h
  rw [get, Array.getD_eq_getD_getElem?, getElem?_toArray, getElem?_map, getElem?_range hlt]
  rfl

lemma get_ofFn (h : Inside index shape) (f : List ℕ → α) : (ofFn shape f).get index = f index := by
  rw [ofFn, indices_eq, map_map, get_mk h, Function.comp_apply, indexAt_offset h]

lemma data_getD (t : Tensor α) (h : k < volume t.shape) : t.data.getD k default = t.get (indexAt t.shape k) := by
  rw [get, offset_indexAt h]

lemma toList_data {t : Tensor α} (h : t.WellShaped) :
    t.data.toList = (List.range (volume t.shape)).map fun k => t.get (indexAt t.shape k) := by
  have hsz : t.data.toList.length = volume t.shape := by rw [Array.length_toList, h]
  refine ext_getElem (by simp [hsz]) fun k hk _ => ?_
  have hk : k < volume t.shape := by rwa [hsz] at hk
  rw [getElem_map, getElem_range, ← data_getD t hk]
  simp [h ▸ hk]

lemma ofFn_eq {t : Tensor α} {f : List ℕ → α} (ht : t.WellShaped) (h : ∀ i, Inside i t.shape → f i = t.get i) :
    ofFn t.shape f = t := by
  rw [ofFn_congr h, ofFn, indices_eq, map_map]
  exact congrArg _ (Array.toList_inj.1 (toList_data ht).symm)

variable {α : Type} {order : List ℕ}

/-- What is chosen at each name of a list is within the size of its axis. -/
def Fits (size : ℕ → ℕ) (names : List ℕ) (a : ℕ → ℕ) : Prop := ∀ k ∈ names, a k < size k

variable {size : ℕ → ℕ} {names rest : List ℕ} {a b : ℕ → ℕ}

lemma Fits.mono (h : Fits size names a) (hsub : ∀ k ∈ rest, k ∈ names) : Fits size rest a := fun k hk => h k (hsub k hk)

lemma Fits.congr (h : Fits size names a) (hab : ∀ k ∈ names, b k = a k) : Fits size names b :=
  fun k hk => (hab k hk).symm ▸ h k hk

lemma Fits.inside (h : Fits size names a) : Inside (names.map a) (names.map size) := by
  rw [Inside, forall₂_map_left_iff, forall₂_map_right_iff, forall₂_same]
  exact h

/-- What is chosen at each name by an index. -/
def choicesAt (names index : List ℕ) (k : ℕ) : ℕ := index.getD (names.idxOf k) 0

lemma map_choicesAt (hnd : names.Nodup) (h : index.length = names.length) :
    names.map (choicesAt names index) = index := by
  refine ext_getElem (by simp [h]) fun i hi hi' => ?_
  have hi : i < names.length := by simpa using hi
  rw [getElem_map, choicesAt, hnd.idxOf_getElem i hi, getD_eq_getElem _ _ hi']

lemma choicesAt_map (a : ℕ → ℕ) (hk : k ∈ names) : choicesAt names (names.map a) k = a k := by
  have hlt : names.idxOf k < names.length := idxOf_lt_length_of_mem hk
  rw [choicesAt, getD_eq_getElem _ _ (by simpa using hlt), getElem_map, getElem_idxOf hlt]

lemma fits_choicesAt (hnd : names.Nodup) (h : Inside index (names.map size)) :
    Fits size names (choicesAt names index) := by
  have hmap := map_choicesAt hnd (by simpa using h.length_eq)
  rw [← hmap, Inside, forall₂_map_left_iff, forall₂_map_right_iff, forall₂_same] at h
  exact h

section Shows

variable [Inhabited α]

/-- A tensor with an axis for each name shows a function of what is chosen at the names. -/
structure Shows (size : ℕ → ℕ) (t : Tensor α) (names : List ℕ) (f : (ℕ → ℕ) → α) : Prop where
  shape_eq : t.shape = names.map size
  wellShaped : t.WellShaped
  get_eq : ∀ a, Fits size names a → t.get (names.map a) = f a

variable {t : Tensor α} {f g : (ℕ → ℕ) → α}

lemma Shows.eq_of_agree (h : t.Shows size names f) (ha : Fits size names a)
    (hab : ∀ k ∈ names, a k = b k) : f a = f b := by
  rw [← h.get_eq a ha, ← h.get_eq b (ha.congr fun k hk => (hab k hk).symm), map_congr_left hab]

lemma shows_ofFn {index : List ℕ → α} (hf : ∀ a, Fits size names a → index (names.map a) = f a) :
    (ofFn (names.map size) index).Shows size names f :=
  ⟨rfl, wellShaped_ofFn _ _, fun a ha => by rw [get_ofFn ha.inside, hf a ha]⟩

lemma shows_mk {entry : ℕ → α} (hf : ∀ a, Fits size names a → entry (offset (names.map size) (names.map a)) = f a) :
    Shows size ⟨names.map size, ((List.range (volume (names.map size))).map entry).toArray⟩ names f := by
  refine ⟨rfl, ?_, fun a ha => ?_⟩
  · rw [WellShaped, size_toArray, length_map, length_range]
  · rw [get_mk ha.inside, hf a ha]

/-! ### Reordering axes -/

lemma idxOf_map {f : ℕ → ℕ} {l : List ℕ} {x : ℕ} (h : ∀ y ∈ l, f y = f x → y = x) :
    (l.map f).idxOf (f x) = l.idxOf x := by
  induction l with
  | nil => rfl
  | cons y l ih =>
    by_cases hy : y = x
    · simp [hy]
    · have hfy : f y ≠ f x := fun e => hy (h y mem_cons_self e)
      rw [map_cons, idxOf_cons_ne _ hfy, idxOf_cons_ne _ hy, ih fun z hz => h z (mem_cons_of_mem y hz)]

section

variable (hnd : names.Nodup) (hpm : order.Perm names)
include hnd hpm

lemma unpermute_map (a : ℕ → ℕ) : unpermute (order.map names.idxOf) (order.map a) = names.map a := by
  refine ext_getElem (by simp [unpermute, hpm.length_eq]) fun i _ hi => ?_
  have hi : i < names.length := by simpa using hi
  have hmem : names[i] ∈ order := hpm.mem_iff.2 (getElem_mem hi)
  -- the position of a name in the new order is that of its old position
  have hidx : (order.map names.idxOf).idxOf i = order.idxOf names[i] := by
    have hmap := idxOf_map (x := names[i]) fun k hk hki =>
      (idxOf_inj (hpm.mem_iff.1 hk)).1 hki
    rwa [hnd.idxOf_getElem i hi] at hmap
  have hget : (order.map a).getD (order.idxOf names[i]) 0 = a names[i] := choicesAt_map a hmem
  simp only [unpermute, getElem_map, getElem_range, hidx, hget]

lemma Shows.permute (h : t.Shows size names f) : (t.permute (order.map names.idxOf)).Shows size order f := by
  have hsh : pick t.shape (order.map names.idxOf) = order.map size := by
    rw [pick, map_map, h.shape_eq]
    exact map_congr_left fun k hk => choicesAt_map size (hpm.mem_iff.1 hk)
  rw [Tensor.permute, hsh]
  refine shows_ofFn fun a ha => ?_
  rw [unpermute_map hnd hpm, h.get_eq a (ha.mono fun k hk => hpm.mem_iff.2 hk)]

lemma Shows.transpose (h : t.Shows size names f) :
    t.transpose (order.map names.idxOf) = .ok (t.permute (order.map names.idxOf)) := by
  have hrn : t.rank = names.length := by rw [rank, h.shape_eq, length_map]
  have hall : (range t.rank).all (order.map names.idxOf).contains := by
    refine all_eq_true.2 fun i hi => contains_iff_mem.2 ?_
    have hi : i < names.length := hrn ▸ mem_range.1 hi
    exact mem_map.2 ⟨names[i], hpm.mem_iff.2 (getElem_mem hi), hnd.idxOf_getElem i hi⟩
  rw [Tensor.transpose, if_pos]
  rw [Bool.and_eq_true, beq_iff_eq]
  exact ⟨by rw [length_map, hpm.length_eq, hrn], hall⟩

end

/-! ### Spreading over more names -/

lemma volume_filter (q : ℕ → Bool) (names : List ℕ) :
    volume (names.map fun k => if q k then size k else 1) = volume ((names.filter q).map size) := by
  induction names with
  | nil => rfl
  | cons k names ih => cases hq : q k <;> simp [hq, ih]

lemma offset_filter (q : ℕ → Bool) (names : List ℕ) (a : ℕ → ℕ) :
    offset (names.map fun k => if q k then size k else 1) (names.map fun k => if q k then a k else 0) =
      offset ((names.filter q).map size) ((names.filter q).map a) := by
  induction names with
  | nil => rfl
  | cons k names ih => cases hq : q k <;> simp [hq, ih, volume_filter]

lemma joinReversed_eq_ok {s r : List ℕ} (h : List.Forall₂ (fun m n => m = n ∨ m = 1) s r) :
    joinReversed s r = .ok r := by
  induction h with
  | nil => rfl
  | @cons m n s r hm _ ih =>
    rw [joinReversed, ih]
    rcases hm with rfl | rfl
    · simp
    · by_cases hn : 1 = n
      · simp [hn]
      · simp [hn]

/-- A tensor over some of the names, spread over all of them, shows the same function. -/
lemma Shows.spread {q : ℕ → Bool} (h : t.Shows size (names.filter q) f) :
    ∃ wide, (t.reshape (names.map fun k => if q k then size k else 1) >>=
      (·.spread (names.map size))) = .ok wide ∧ wide.Shows size names f := by
  have hvl : volume (names.map fun k => if q k then size k else 1) = t.data.size := by
    rw [volume_filter, ← h.shape_eq, h.wellShaped]
  set sizes := names.map fun k => if q k then size k else 1 with hsz
  have hrs : t.reshape sizes = .ok { t with shape := sizes } := by rw [reshape, if_pos (by simpa using hvl)]
  have hjn : joinShapes sizes (names.map size) = .ok (names.map size) := by
    rw [joinShapes, joinReversed_eq_ok, ok_bind, pure_eq_ok, reverse_reverse]
    rw [forall₂_reverse_iff, forall₂_map_left_iff, forall₂_map_right_iff, forall₂_same]
    intro k _
    split_ifs
    · exact .inl rfl
    · exact .inr rfl
  refine ⟨ofFn _ (spreadGet { t with shape := sizes }), ?_, shows_ofFn ?_⟩
  · rw [hrs, ok_bind, Tensor.spread, hjn]
    simp
  · intro a ha
    have hidx : spreadIndex sizes (names.map a) = names.map fun k => if q k then a k else 0 := by
      rw [spreadIndex, length_map, length_map, Nat.sub_self, drop_zero, zip_map', map_map]
      refine map_congr_left fun k hk => ?_
      have hak := ha k hk
      cases hq : q k with
      | false => simp [hq]
      | true =>
        by_cases hone : size k = 1
        · simp [hq, hone]
          omega
        · simp [hq, hone]
    have hft : Fits size (names.filter q) a := ha.mono fun k hk => mem_of_mem_filter hk
    rw [spreadGet, hidx, ← h.get_eq a hft, get, get, h.shape_eq, offset_filter]

/-- The part below leading choices shows the function with these choices. -/
lemma Shows.sub {lead : List ℕ} (h : t.Shows size (lead ++ rest) f)
    (hnd : (lead ++ rest).Nodup) (ha : Fits size lead a) :
    (t.sub (lead.map a)).Shows size rest fun b => f fun k => if k ∈ lead then a k else b k := by
  have hsh : t.shape.drop (lead.map a).length = rest.map size := by
    rw [h.shape_eq, map_append, length_map]
    exact drop_left' (length_map _)
  rw [Tensor.sub, hsh]
  refine shows_ofFn fun b hb => ?_
  have hmap : lead.map a ++ rest.map b = (lead ++ rest).map fun k => if k ∈ lead then a k else b k := by
    rw [map_append]
    congr 1
    · exact map_congr_left fun k hk => (if_pos hk).symm
    · refine map_congr_left fun k hk => (if_neg fun hk' => ?_).symm
      exact (nodup_append.1 hnd).2.2 k hk' k hk rfl
  rw [hmap, h.get_eq]
  intro k hk
  dsimp only
  split_ifs with hld
  · exact ha k hld
  · exact hb k ((mem_append.1 hk).resolve_left hld)

end Shows

end TensorToolchain.Tensor
