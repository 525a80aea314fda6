import TensorToolchain.LayoutChoice.Stage
import TensorToolchain.Proofs.LayoutChoice.ExactCost
import TensorToolchain.Proofs.LayoutChoice.NearestAncestors
import TensorToolchain.Proofs.Tensor.NamedAxes

/-!
# Aligned tables

The tables of several stages are spread over the nodes of all of them. An entry of the common shape
is a choice at each of these nodes, and every table then shows there what it showed before.
-/

namespace TensorToolchain.LayoutChoice

/-! ### Minimising along the axes of a table

A table of costs has an axis for each of some nodes. Minimising along an axis leaves the least costs
over the choices at the node that is gone. The tables of several stages are added entry by entry
once they are spread over common axes.
-/

open List Tensor Function
open Tensor (Fits Shows)

variable {size : ℕ → ℕ} {kept names : List ℕ} {f g h : (ℕ → ℕ) → ℚ} {a : ℕ → ℕ} {t : Tensor ℚ}
variable {k : ℕ} {pre post : List ℕ}

/-- A function of the choices at some nodes is the least value of a function of the choices at
more nodes. -/
structure LeastOver (size : ℕ → ℕ) (kept names : List ℕ) (g f : (ℕ → ℕ) → ℚ) : Prop where
  le : ∀ a, Fits size names a → g a ≤ f a
  attained : ∀ a, Fits size kept a → ∃ b, Fits size names b ∧ (∀ k ∈ kept, b k = a k) ∧ f b = g a

lemma LeastOver.refl (size : ℕ → ℕ) (names : List ℕ) (f : (ℕ → ℕ) → ℚ) : LeastOver size names names f f :=
  ⟨fun _ _ => le_rfl, fun a ha => ⟨a, ha, fun _ _ => rfl, rfl⟩⟩

lemma LeastOver.trans {mid : List ℕ} (hg : LeastOver size kept mid h g)
    (hf : LeastOver size mid names g f) (hkp : ∀ k ∈ kept, k ∈ mid)
    (hmid : ∀ k ∈ mid, k ∈ names) : LeastOver size kept names h f := by
  refine ⟨fun a ha => (hg.le a (ha.mono hmid)).trans (hf.le a ha), fun a ha => ?_⟩
  obtain ⟨b, hb, hba, hgb⟩ := hg.attained a ha
  obtain ⟨c, hc, hcb, hfc⟩ := hf.attained b hb
  exact ⟨c, hc, fun k hk => (hcb k (hkp k hk)).trans (hba k hk), hfc.trans hgb⟩

/-! ### One axis -/

def leastAt (n k : ℕ) (f : (ℕ → ℕ) → ℚ) (a : ℕ → ℕ) : ℚ :=
  (exactScale.leastOf? ((List.range n).map fun x => f (update a k x))).getD default

lemma leastAt_spec {n : ℕ} (hn : 0 < n) (k : ℕ) (f : (ℕ → ℕ) → ℚ) (a : ℕ → ℕ) :
    (∃ x < n, f (update a k x) = leastAt n k f a) ∧ ∀ x < n, leastAt n k f a ≤ f (update a k x) := by
  have hne : ((range n).map fun x => f (update a k x)) ≠ [] := by
    simp only [ne_eq, map_eq_nil_iff, range_eq_nil]
    omega
  obtain ⟨y, hy, hls, hle⟩ := leastOf?_eq_some hne
  rw [leastAt, hls]
  obtain ⟨x, hx, rfl⟩ := mem_map.1 hy
  refine ⟨⟨x, mem_range.1 hx, rfl⟩, fun z hz => hle _ (mem_map.2 ⟨z, ?_, rfl⟩)⟩
  exact mem_range.2 hz

lemma fits_update {x : ℕ} (ha : Fits size (pre ++ post) a) (hx : x < size k) :
    Fits size (pre ++ k :: post) (update a k x) := by
  intro j hj
  by_cases hjk : j = k
  · rw [hjk, update_self]
    exact hx
  · rw [update_of_ne hjk]
    refine ha j ?_
    simp only [mem_append, mem_cons] at hj ⊢
    tauto

lemma leastOver_leastAt (hk : 0 < size k) (hnodup : (pre ++ k :: post).Nodup) :
    LeastOver size (pre ++ post) (pre ++ k :: post) (leastAt (size k) k f) f := by
  obtain ⟨hnt, -⟩ := nodup_middle.1 hnodup |> nodup_cons.1
  refine ⟨fun a ha => ?_, fun a ha => ?_⟩
  · have hle := (leastAt_spec hk k f a).2 (a k) (ha k (by simp))
    rwa [update_eq_self] at hle
  · obtain ⟨x, hx, hfx⟩ := (leastAt_spec hk k f a).1
    refine ⟨update a k x, fits_update ha hx, fun j hj => ?_, hfx⟩
    refine update_of_ne ?_ x a
    rintro rfl
    exact hnt hj

lemma insertIdx_append (pre post : List ℕ) (x : ℕ) : (pre ++ post).insertIdx pre.length x = pre ++ x :: post := by
  induction pre with
  | nil => rfl
  | cons y pre ih => rw [cons_append, length_cons, insertIdx_succ_cons, ih]; rfl

/-- The entries along an axis are those for the choices at its node. -/
lemma map_fibre (ht : t.Shows size (pre ++ k :: post) f) (hnodup : (pre ++ k :: post).Nodup)
    (ha : Fits size (pre ++ post) a) : (fibre pre.length (size k) ((pre ++ post).map a)).map t.get =
      (List.range (size k)).map fun x => f (update a k x) := by
  obtain ⟨hnt, -⟩ := nodup_middle.1 hnodup |> nodup_cons.1
  rw [fibre, map_map]
  refine map_congr_left fun x hx => ?_
  have hidx : ((pre ++ post).map a).insertIdx pre.length x = (pre ++ k :: post).map (update a k x) := by
    have hsm : ∀ j ∈ pre ++ post, update a k x j = a j := by
      intro j hj
      refine update_of_ne ?_ x a
      rintro rfl
      exact hnt hj
    rw [map_append, map_append, map_cons, update_self, map_congr_left fun j hj => hsm j (mem_append_left post hj),
      map_congr_left fun j hj => hsm j (mem_append_right pre hj)]
    exact length_map a ▸ insertIdx_append _ _ x
  rw [comp_apply, hidx, ht.get_eq _ (fits_update ha (mem_range.1 hx))]

section

variable (ht : t.Shows size (pre ++ k :: post) f) (hk : 0 < size k)
  (hnodup : (pre ++ k :: post).Nodup)

include ht

lemma getD_shape : t.shape.getD pre.length 0 = size k := by rw [ht.shape_eq]; simp

lemma eraseIdx_shape : t.shape.eraseIdx pre.length = (pre ++ post).map size := by
  rw [ht.shape_eq, map_append, eraseIdx_append_of_length_le (by simp)]
  simp

include hk hnodup

lemma leastAlong_eq_ok : ∃ u, exactScale.leastAlong t pre.length = .ok u ∧
    u.Shows size (pre ++ post) (leastAt (size k) k f) := by
  refine ⟨.ofFn _ fun i =>
    (exactScale.leastOf? ((fibre pre.length (size k) i).map t.get)).getD default, ?_, shows_ofFn fun a ha => ?_⟩
  · rw [CostScale.leastAlong, getD_shape ht, if_neg (by simpa using hk.ne'), eraseIdx_shape ht]
  · rw [map_fibre ht hnodup ha, leastAt]

/-- The first choice at the node of an axis for which an entry is least. -/
lemma leastIndexAlong_eq_ok : ∃ u h, exactScale.leastIndexAlong t pre.length = .ok u ∧
    u.Shows size (pre ++ post) h ∧ ∀ a, Fits size (pre ++ post) a →
      h a < size k ∧ ∀ x < size k, f (update a k (h a)) ≤ f (update a k x) := by
  refine ⟨.ofFn _ fun i =>
    (exactScale.leastIndex? ((fibre pre.length (size k) i).map t.get)).getD 0,
    fun a => (exactScale.leastIndex? ((range (size k)).map fun x =>
      f (update a k x))).getD 0, ?_, shows_ofFn fun a ha => ?_, fun a _ => ?_⟩
  · have hrn : ¬ t.rank ≤ pre.length := by
      rw [rank, ht.shape_eq, length_map, length_append, length_cons]
      omega
    rw [CostScale.leastIndexAlong, if_neg hrn, getD_shape ht, if_neg (by simpa using hk.ne'), eraseIdx_shape ht]
  · rw [map_fibre ht hnodup ha]
  · have hne : ((range (size k)).map fun x => f (update a k x)) ≠ [] := by
      simp only [ne_eq, map_eq_nil_iff, range_eq_nil]
      omega
    obtain ⟨x, hx, hls, hle⟩ := leastIndex?_eq_some hne
    rw [length_map, length_range] at hx hle
    dsimp only
    rw [hls]
    refine ⟨hx, fun y hy => ?_⟩
    have hxy := hle y hy
    rwa [getD_eq_getElem _ _ (by simpa using hx), getD_eq_getElem _ _ (by simpa using hy),
      getElem_map, getElem_map, getElem_range, getElem_range] at hxy

end

lemma leastIndex?_data (ht : t.Shows size names f) (hnodup : names.Nodup) (hpos : ∀ k ∈ names, 0 < size k) :
    ∃ e a, exactScale.leastIndex? t.data.toList = some e ∧
      indexAt (names.map size) e = names.map a ∧ Fits size names a ∧ ∀ b, Fits size names b → f a ≤ f b := by
  set shape := names.map size with hsh
  have hvl : 0 < volume shape := volume_pos fun n hn => by
    obtain ⟨k, hk, rfl⟩ := mem_map.1 hn
    exact hpos k hk
  have hdt := toList_data ht.wellShaped
  rw [ht.shape_eq] at hdt
  have hne : t.data.toList ≠ [] := by
    rw [hdt, ← length_pos_iff, length_map, length_range]
    exact hvl
  obtain ⟨e, he, hidx, hle⟩ := leastIndex?_eq_some hne
  rw [hdt, length_map, length_range] at he hle
  have hget : ∀ d < volume shape, ((range (volume shape)).map fun k =>
      t.get (indexAt shape k)).getD d 0 = t.get _ := fun d hd => by
    rw [getD_eq_getElem _ _ (by simpa using hd), getElem_map, getElem_range]
  have hin := inside_indexAt he
  have hft := fits_choicesAt hnodup hin
  have hmap := map_choicesAt hnodup (by simpa [hsh] using hin.length_eq)
  refine ⟨e, _, hidx, hmap.symm, hft, fun b hb => ?_⟩
  rw [← ht.get_eq _ hft, ← ht.get_eq b hb, hmap, ← hget e he, ← indexAt_offset hb.inside,
    ← hget _ (offset_lt hb.inside)]
  exact hle _ (offset_lt hb.inside)

/-! ### All axes that nobody waits for -/

/-- Whether a node stays, given who waits for it. -/
def stays (waiting : Links) (k : ℕ) : Bool := (waiting.get? k).any (·.length != 1)

/-- Go on with one axis more. -/
def reduceAxis (s : List ℕ × Tensor ℚ × Links) (k : ℕ) : Except Fault (List ℕ × Tensor ℚ × Links) :=
  if stays s.2.2 k then .ok (s.1 ++ [k], s.2.1, s.2.2)
  else exactScale.leastAlong s.2.1 (s.1.length + 1) >>= fun u => .ok (s.1, u, s.2.2.erase k)

lemma reduceAxes_eq (nodes : List ℕ) (t : Tensor ℚ) (waiting : Links) :
    Progress.reduceAxes exactScale nodes t waiting = nodes.foldlM reduceAxis ([], t, waiting) := by
  rw [Progress.reduceAxes]
  congr 1
  funext s k
  obtain ⟨needed, t, waiting⟩ := s
  rw [reduceAxis, stays]
  dsimp only
  cases waiting.get? k with
  | none => rfl
  | some stages =>
    rcases stages with _ | ⟨x, _ | ⟨y, stages⟩⟩
    · rfl
    · rfl
    · rfl

lemma reduceAxes_eq_ok {own : ℕ} {nodes : List ℕ} (ht : t.Shows size (own :: nodes) f)
    (hnodup : (own :: nodes).Nodup) (hpos : ∀ k ∈ nodes, 0 < size k) (waiting : Links) :
    ∃ u g rest, Progress.reduceAxes exactScale nodes t waiting = .ok (nodes.filter (stays waiting), u, rest) ∧
      u.Shows size (own :: nodes.filter (stays waiting)) g ∧
      LeastOver size (own :: nodes.filter (stays waiting)) (own :: nodes) g f ∧
      ∀ k, rest.get? k = if k ∈ nodes ∧ stays waiting k = false then none else waiting.get? k := by
  -- what is left of the axes: those that stay of the nodes seen, and the nodes to come
  refine (foldlM_eq_ok (f := reduceAxis) (b := ([], t, waiting)) (l := nodes)
    (fun seen s => s.1 = seen.filter (stays waiting) ∧
      (∀ k, s.2.2.get? k = if k ∈ seen ∧ stays waiting k = false then none else waiting.get? k) ∧
      ∃ g, s.2.1.Shows size (own :: s.1 ++ nodes.drop seen.length) g ∧
        LeastOver size (own :: s.1 ++ nodes.drop seen.length) (own :: nodes) g f)
    ⟨rfl, by simp, f, by simpa using ht, by simpa using .refl size _ f⟩ ?_).elim ?_
  swap
  · rintro ⟨_, u, rest⟩ ⟨hrun, rfl, hr, g, hu, hg⟩
    rw [drop_length, append_nil] at hu hg
    exact ⟨u, g, rest, (reduceAxes_eq nodes t waiting).trans hrun, hu, hg, hr⟩
  rintro seen k later ⟨_, t, now⟩ rfl ⟨rfl, hnow, g, ht, hg⟩
  have hsn := notMem_seen (nodup_cons.1 hnodup).2 rfl
  have hlt : (seen ++ k :: later).drop (seen ++ [k]).length = later := by simp
  have hnw' : stays now k = stays waiting k := by rw [stays, hnow, if_neg (hsn ·.1), stays]
  have hk : 0 < size k := hpos k (by simp)
  rw [drop_left] at ht hg
  rw [reduceAxis]
  cases hst : stays waiting k with
  | true =>
    have has : own :: seen.filter (stays waiting) ++ k :: later =
        own :: (seen.filter (stays waiting) ++ [k]) ++ later := by simp
    refine ⟨_, by rw [hnw', hst, if_pos rfl], by simp [hst], fun j => ?_, g, ?_, ?_⟩
    · rw [hnow]
      by_cases hj : j = k
      · simp [hj, hst]
      · simp [hj]
    · rwa [hlt, ← has]
    · rwa [hlt, ← has]
  | false =>
    have hlf : (own :: seen.filter (stays waiting) ++ k :: later).Nodup :=
      hnodup.sublist ((filter_sublist.append_right _).cons_cons own)
    obtain ⟨u, hu, hsh⟩ := leastAlong_eq_ok ht hk hlf
    rw [length_cons] at hu
    refine ⟨_, by rw [hnw', hst, if_neg Bool.false_ne_true, hu, ok_bind], by simp [hst],
      fun j => ?_, _, hlt.symm ▸ hsh, ?_⟩
    · rw [Keyed.get?_erase, hnow]
      by_cases hj : j = k
      · simp [hj, hst]
      · simp [hj]
    · rw [hlt]
      refine (leastOver_leastAt hk hlf).trans hg (fun j hj => ?_) fun j hj => ?_
      · simp only [mem_append, mem_cons] at hj ⊢
        tauto
      · simp only [mem_append, mem_cons, mem_filter] at hj ⊢
        tauto

variable {γ : Type} [Inhabited γ] {xs shape : List ℕ} {s : Stage γ} {f : (ℕ → ℕ) → γ}

/-! ### The nodes of the aligned axes -/

lemma nodup_addNew (h : xs.Nodup) (x : ℕ) : (addNew xs x).Nodup := by
  rw [addNew]
  split_ifs with hx
  · exact h
  · exact nodup_snoc h fun hm => hx (contains_iff_mem.2 hm)

lemma nodup_foldl_addNew (h : xs.Nodup) (ys : List ℕ) : (ys.foldl addNew xs).Nodup := by
  induction ys generalizing xs with
  | nil => exact h
  | cons y ys ih => exact ih (nodup_addNew h y)

lemma exists_foldl_addNew (xs ys : List ℕ) : ∃ more, ys.foldl addNew xs = xs ++ more := by
  induction ys generalizing xs with
  | nil => exact ⟨[], (append_nil xs).symm⟩
  | cons y ys ih =>
    obtain ⟨more, hmr⟩ := ih _
    rw [foldl_cons, hmr, addNew]
    split_ifs
    · exact ⟨more, rfl⟩
    · exact ⟨y :: more, by simp⟩

lemma foldl_addNew_of_nodup {ys : List ℕ} (h : (xs ++ ys).Nodup) : ys.foldl addNew xs = xs ++ ys := by
  induction ys generalizing xs with
  | nil => exact (append_nil xs).symm
  | cons y ys ih =>
    have hy : y ∉ xs := notMem_seen h rfl
    rw [foldl_cons, addNew, if_neg (by simpa using hy), ih (by simpa using h)]
    simp

variable {inputs : List ℕ} {needed : List (List ℕ)}

lemma mem_alignedNodes {needs : ℕ → List ℕ} :
    k ∈ alignedNodes inputs (inputs.map needs) ↔ ∃ i ∈ inputs, k = i ∨ k ∈ needs i := by
  rw [alignedNodes, mem_foldl_addNew, mem_flatten]
  simp only [mem_map, exists_exists_and_eq_and, and_or_left, exists_or, exists_eq_right']

lemma nodup_alignedNodes (h : inputs.Nodup) (needed : List (List ℕ)) :
    (alignedNodes inputs needed).Nodup := nodup_foldl_addNew h _

lemma exists_alignedNodes (inputs : List ℕ) (needed : List (List ℕ)) :
    ∃ more, alignedNodes inputs needed = inputs ++ more := exists_foldl_addNew inputs _

lemma lastPosition_append (pre : List ℕ) {x : ℕ} (h : x ∉ post) :
    lastPosition (pre ++ x :: post) x = pre.length := by
  have hidx : (pre ++ x :: post).reverse.idxOf x = post.length := by
    rw [reverse_append, reverse_cons, append_assoc, idxOf_append_of_notMem (by simpa using h)]
    simp
  rw [lastPosition, length_append, length_cons]
  omega

/-! ### Tables of stages -/

def neededBy (stages : Keyed ℕ (Stage γ)) (i : ℕ) : List ℕ := ((stages.get? i).map Stage.needed).getD []

omit [Inhabited γ] in
lemma neededBy_eq {stages : Keyed ℕ (Stage γ)} {i : ℕ} (h : stages.get? i = some s) : neededBy stages i = s.needed := by
  rw [neededBy, h]
  rfl

/-- The least cost of everything up to a node, as its stage has it. -/
def costUpTo (stages : Keyed ℕ (Stage γ)) (i : ℕ) (a : ℕ → ℕ) : γ :=
  ((stages.get? i).map fun s => s.states.get ((i :: s.needed).map a)).getD default

/-- The stage of a node has a table over the node and those that it needs. -/
def HasTable (size : ℕ → ℕ) (stages : Keyed ℕ (Stage γ)) (i : ℕ) : Prop :=
  ∃ s, stages.get? i = some s ∧ s.states.Shows size (i :: s.needed) (costUpTo stages i) ∧ (i :: s.needed).Nodup

/-- A table over common axes shows a function, and one can read off the choice at its own node from
an entry, or from a number that differs from an entry by a multiple of all entries. -/
structure AlignedTo (size : ℕ → ℕ) (nodes : List ℕ) (i : ℕ) (f : (ℕ → ℕ) → γ) (t : Aligned γ) : Prop where
  node_eq : t.node = i
  axis_eq : t.axis = lastPosition nodes i
  shows : t.states.Shows size nodes f
  choice_eq : ∀ a, Fits size nodes a → ∀ e : ℤ,
    e ≡ offset (nodes.map size) (nodes.map a) [ZMOD volume (nodes.map size)] → (t.choiceAt e).toNat = a i

variable {size : ℕ → ℕ} {stages : Keyed ℕ (Stage γ)} {nodes : List ℕ} {i : ℕ} {t : Aligned γ}

/-- An entry of an aligned table is what it shows for the choice that the entry stands for. -/
lemma AlignedTo.getD_offset (h : AlignedTo size nodes i f t) (ha : Fits size nodes a) :
    t.states.data.getD (offset (nodes.map size) (nodes.map a)) default = f a := by
  rw [← h.shows.get_eq a ha, Tensor.get, h.shows.shape_eq]

/-- A number that stands for an entry stands for it within the entries that one step along the axis
before passes. -/
lemma modEq_stride {axis : ℕ} (hax : axis < shape.length) {e o : ℤ} (he : e ≡ o [ZMOD volume shape]) :
    e ≡ o [ZMOD (volume (shape.drop (axis + 1)) * shape.getD axis 0 : ℕ)] := by
  refine he.of_dvd (Int.natCast_dvd_natCast.2 ⟨volume (shape.take axis), ?_⟩)
  rw [mul_comm, mul_comm (volume (shape.drop _)), ← volume_cons,
    getD_eq_getElem _ _ hax, ← volume_append, getElem_cons_drop, take_append_drop]

/-- The choice along an axis, from any number that stands for an entry. -/
lemma fmod_fdiv {index : List ℕ} (hin : Tensor.Inside index shape) {axis : ℕ} (hax : axis < shape.length) {e : ℤ}
    (he : e ≡ offset shape index [ZMOD volume shape]) :
    ((e.fmod (volume (shape.drop (axis + 1)) * shape.getD axis 0 : ℕ)).fdiv
      (volume (shape.drop (axis + 1)) : ℕ)).toNat = index.getD axis 0 := by
  rw [Int.fmod_eq_emod_of_nonneg _ (Int.natCast_nonneg _), modEq_stride hax he,
    ← Int.natCast_mod, Int.fdiv_eq_ediv_of_nonneg _ (Int.natCast_nonneg _), ← Int.natCast_ediv,
    Int.toNat_natCast, Nat.mod_mul_right_div_self, offset_div_mod hin hax]

lemma alignStage_eq_ok (hnd : nodes.Nodup) (hs : s.states.Shows size (i :: s.needed) f)
    (hown : (i :: s.needed).Nodup) (hsub : ∀ k ∈ i :: s.needed, k ∈ nodes) :
    ∃ t, alignStage nodes (nodes.map size) i s = .ok t ∧ AlignedTo size nodes i f t := by
  have hpm : (nodes.filter (i :: s.needed).contains).Perm (i :: s.needed) := by
    refine (perm_ext_iff_of_nodup (hnd.filter _) hown).2 fun k => ?_
    rw [mem_filter, contains_iff_mem]
    exact ⟨And.right, fun hk => ⟨hsub k hk, hk⟩⟩
  obtain ⟨wide, hwd, hsh⟩ := (hs.permute hown hpm).spread
  have hsz : ((nodes.zip (nodes.map size)).map fun p =>
      if (i :: s.needed).contains p.1 then p.2 else 1) =
      nodes.map fun k => if (i :: s.needed).contains k then size k else 1 := by
    have hzip : nodes.zip (nodes.map size) = nodes.map fun k => (k, size k) := by rw [← zip_map', map_id']
    rw [hzip, map_map]
    rfl
  refine ⟨⟨i, lastPosition nodes i, volume ((nodes.map size).drop
    (lastPosition nodes i + 1)), wide⟩, ?_, rfl, rfl, hsh, ?_⟩
  · rw [← hsz] at hwd
    rw [alignStage]
    obtain ⟨flat, hfl, hsp⟩ := bind_eq_ok.1 hwd
    rw [hs.transpose hown hpm, ok_bind, hfl, ok_bind, hsp]
    rfl
  · intro a ha e he
    obtain ⟨pre, post, rfl⟩ := append_of_mem (hsub i mem_cons_self)
    have hps : i ∉ post := fun hi => by
      have := (nodup_append.1 hnd).2.1
      exact (nodup_cons.1 this).1 hi
    rw [Aligned.choiceAt]
    rw [hsh.shape_eq, lastPosition_append pre hps, fmod_fdiv ha.inside (by simp) he]
    simp

lemma align_eq_ok (hins : inputs.Nodup) (h : ∀ i ∈ inputs, HasTable size stages i) :
    ∃ tables, align size stages inputs = .ok (tables, alignedNodes inputs (inputs.map (neededBy stages))) ∧
      List.Forall₂ (fun i => AlignedTo size (alignedNodes inputs (inputs.map (neededBy stages))) i
        (costUpTo stages i)) inputs tables := by
  have hfn : inputs.mapM (fun i => do return (i, ← orFail .missingKey (stages.get? i)) :
      ℕ → Except Fault _) = .ok (inputs.map fun i => (i, (stages.get? i).getD default)) := by
    refine mapM_eq_ok fun i hi => ?_
    obtain ⟨s, hs, -⟩ := h i hi
    rw [hs]
    rfl
  have hnd : (inputs.map fun i => (i, (stages.get? i).getD default)).map
      (·.2.needed) = inputs.map (neededBy stages) := by
    rw [map_map]
    refine map_congr_left fun i hi => ?_
    obtain ⟨s, hs, -⟩ := h i hi
    rw [comp_apply, neededBy, hs]
    rfl
  set nodes := alignedNodes inputs _ with hnds
  have hsp : ∀ e ∈ inputs.map fun i => (i, (stages.get? i).getD default),
      ∃ t, alignStage nodes (nodes.map size) e.1 e.2 = .ok t ∧ AlignedTo size nodes e.1 (costUpTo stages e.1) t := by
    intro e he
    obtain ⟨i, hi, rfl⟩ := mem_map.1 he
    obtain ⟨s, hs, hsh, hown⟩ := h i hi
    rw [hs]
    refine alignStage_eq_ok (nodup_alignedNodes hins _) hsh hown fun k hk => ?_
    exact mem_alignedNodes.2 ⟨i, hi, mem_cons.1 (neededBy_eq hs ▸ hk)⟩
  obtain ⟨tables, htbs, hall⟩ := exists_mapM_eq_ok hsp
  refine ⟨tables, ?_, forall₂_map_left_iff.1 hall⟩
  rw [align, hfn, ok_bind]
  dsimp only
  rw [hnd, ← hnds, htbs]
  rfl

lemma AlignedTo.getElem?_axis (h : AlignedTo size nodes i f t) (hnd : nodes.Nodup) (hi : i ∈ nodes) :
    nodes[t.axis]? = some i := by
  obtain ⟨pre, post, rfl⟩ := append_of_mem hi
  have hps : i ∉ post := (nodup_cons.1 (nodup_append.1 hnd).2.1).1
  rw [h.axis_eq, lastPosition_append pre hps, getElem?_append_right le_rfl, Nat.sub_self]
  rfl

lemma AlignedTo.choiceAt_natCast (h : AlignedTo size nodes i f t) (hax : nodes[t.axis]? = some i) (e : ℕ) :
    t.choiceAt e = (e % (t.stride * size i) / t.stride : ℕ) := by
  have hsz : t.states.shape.getD t.axis 0 = size i := by
    rw [h.shows.shape_eq, getD_eq_getElem?_getD, getElem?_map, hax]
    rfl
  rw [Aligned.choiceAt, hsz, Int.fmod_eq_emod_of_nonneg _ (Int.natCast_nonneg _),
    Int.fdiv_eq_ediv_of_nonneg _ (Int.natCast_nonneg _), Int.natCast_ediv, Int.natCast_emod]

/-- Tables of distinct stages, each over the stage itself and the distinct nodes that it needs, are
aligned: each is spread over all these nodes, its entry at any coordinates is the entry of the table
that it was at the coordinates of its own nodes, and the coordinate of the stage itself is read off
the position of an entry. -/
theorem tables_aligned (hinputs : inputs.Nodup) (h : ∀ i ∈ inputs, ∃ s, stages.get? i = some s ∧
      (i :: s.needed).Nodup ∧ s.states.WellShaped ∧ s.states.shape = (i :: s.needed).map size) :
    ∃ tables nodes, align size stages inputs = .ok (tables, nodes) ∧ nodes.Nodup ∧
      (∀ k, k ∈ nodes ↔ ∃ i ∈ inputs, k ∈ i :: neededBy stages i) ∧
      List.Forall₂ (fun i t => t.node = i ∧ nodes[t.axis]? = some i ∧
        t.states.WellShaped ∧ t.states.shape = nodes.map size ∧
        (∀ index, Inside index (nodes.map size) → ∀ s, stages.get? i = some s →
          t.states.get index = s.states.get ((i :: s.needed).map (choicesAt nodes index))) ∧
        ∀ e < volume (nodes.map size),
          t.choiceAt e = ((e % (t.stride * size i) / t.stride : ℕ) : ℤ) ∧
          e % (t.stride * size i) / t.stride = choicesAt nodes (indexAt (nodes.map size) e) i)
        inputs tables := by
  have htables : ∀ i ∈ inputs, HasTable size stages i := fun i hi => by
    obtain ⟨s, hs, hown, hwell, hshape⟩ := h i hi
    exact ⟨s, hs, ⟨hshape, hwell, fun a _ => by rw [costUpTo, hs]; rfl⟩, hown⟩
  obtain ⟨tables, halign, hall⟩ := align_eq_ok hinputs htables
  set nodes := alignedNodes inputs (inputs.map (neededBy stages)) with hnodes
  have hnodup : nodes.Nodup := nodup_alignedNodes hinputs _
  have hmem : ∀ k, k ∈ nodes ↔ ∃ i ∈ inputs, k ∈ i :: neededBy stages i := fun k => by
    simp only [hnodes, mem_alignedNodes, mem_cons]
  have hin : ∀ i ∈ inputs, i ∈ nodes := fun i hi => (hmem i).2 ⟨i, hi, mem_cons_self⟩
  refine ⟨tables, nodes, halign, hnodup, hmem, ((forall₂_and_left _ _).2 ⟨hin, hall⟩).imp ?_⟩
  rintro i t ⟨hi, ht⟩
  have haxis := ht.getElem?_axis hnodup hi
  have hindex : ∀ index, Inside index (nodes.map size) → nodes.map (choicesAt nodes index) = index :=
    fun index hinside => map_choicesAt hnodup (by simpa using hinside.length_eq)
  refine ⟨ht.node_eq, haxis, ht.shows.wellShaped, ht.shows.shape_eq, fun index hinside s hs => ?_,
    fun e he => ⟨ht.choiceAt_natCast haxis e, ?_⟩⟩
  · have hget := ht.shows.get_eq _ (fits_choicesAt hnodup hinside)
    rw [hindex index hinside, costUpTo, hs] at hget
    exact hget
  · have hinside := inside_indexAt he
    have hchoice := ht.choice_eq _ (fits_choicesAt hnodup hinside) e (by rw [hindex _ hinside, offset_indexAt he])
    rwa [ht.choiceAt_natCast haxis, Int.toNat_natCast] at hchoice

/-- Two stages with three choices each that need a common node, the second also the first. -/
def sharedNeeds : Keyed ℕ (Stage ℕ) where
  entries := [(4, ⟨[1], ⟨[3, 2], #[0, 1, 2, 3, 4, 5]⟩, ⟨[], #[]⟩, none, false⟩),
    (5, ⟨[4, 1], .ofFn [3, 3, 2] fun index => index.foldl (10 * · + ·) 0, ⟨[], #[]⟩, none, false⟩)]

theorem sharedNeeds_aligned : ∃ tables nodes,
    align (fun k => if k = 1 then 2 else 3) sharedNeeds [5, 4] = .ok (tables, nodes) ∧ nodes.Nodup ∧
      ∀ k, k ∈ nodes ↔ ∃ i ∈ [5, 4], k ∈ i :: neededBy sharedNeeds i := by
  obtain ⟨tables, nodes, halign, hnodup, hmem, -⟩ := @tables_aligned _ _ [5, 4]
    (fun k => if k = 1 then 2 else 3) sharedNeeds (by decide) (by
      simp only [forall_mem_cons]
      exact ⟨⟨_, rfl, by decide, rfl, rfl⟩, ⟨_, rfl, by decide, rfl, rfl⟩, by simp⟩)
  exact ⟨tables, nodes, halign, hnodup, hmem⟩

end TensorToolchain.LayoutChoice
