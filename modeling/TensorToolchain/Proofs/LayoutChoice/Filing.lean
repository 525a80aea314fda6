import TensorToolchain.Proofs.Keyed
import TensorToolchain.Proofs.LayoutChoice.ExactCost

/-!
# Filing by degree

The nodes that are left during an elimination stand in buckets, each node in the bucket of the
degree under which it is filed. A node that is retired leaves its bucket and the lists of its
neighbours, which are filed anew; all other nodes stay where they are.
-/

namespace TensorToolchain.LayoutChoice

open List Option

variable {i d : ℕ} {nodes around : List ℕ} {degree : Keyed ℕ ℕ} {buckets rest : List (List ℕ)}

/-- Taking a node out of the inputs of others answers if all of them list it, and erases it there
only. -/
lemma Links.unlink_eq_ok {links : Links} {outs : List ℕ} (hnd : outs.Nodup)
    (h : ∀ k ∈ outs, ∃ inputs, links.get? k = some inputs ∧ i ∈ inputs) :
    ∃ rest, unlink links i outs = .ok rest ∧ rest.keys = links.keys ∧
      ∀ j, rest.get? j = if j ∈ outs then (links.get? j).map (·.erase i) else links.get? j := by
  refine foldlM_eq_ok (fun seen (rest : Links) => rest.keys = links.keys ∧
    ∀ j, rest.get? j = if j ∈ seen then (links.get? j).map (·.erase i) else links.get? j)
    ⟨rfl, by simp⟩ ?_
  intro seen k later rest hot hrest
  obtain ⟨hks, hget⟩ := hrest
  obtain ⟨inputs, hins, hi⟩ := h k (by simp [hot])
  have hsn := notMem_seen hnd hot
  have hk : rest.get? k = some inputs := by rw [hget, if_neg hsn, hins]
  refine ⟨rest.set k (inputs.erase i), ?_, ?_, fun j => ?_⟩
  · rw [hk, orFail_some, ok_bind, contains_iff_mem.2 hi]
    rfl
  · rw [Keyed.keys_set_of_mem _ (Keyed.mem_keys_of_get? hk), hks]
  · rw [Keyed.get?_set, hget]
    by_cases hj : j = k
    · simp [hj, hins]
    · simp [hj]

namespace Links

variable {links rest : Links} {j k : ℕ} {inputs outs : List ℕ}

/-- How often a node lists another among its inputs. -/
def times (links : Links) (i k : ℕ) : ℕ := ((links.get? i).getD []).count k

/-- What taking a node out of the inputs of others, once for each time they are named, leaves. -/
structure Unlinked (links : Links) (i : ℕ) (outs : List ℕ) (rest : Links) : Prop where
  keys : rest.keys = links.keys
  named : ∀ j ∈ outs, j ∈ links.keys
  other : ∀ j ∉ outs, rest.get? j = links.get? j
  perm : ∀ j, ((rest.get? j).getD [] ++ replicate (outs.count j) i).Perm ((links.get? j).getD [])

lemma unlinked_nil (links : Links) (i : ℕ) : Unlinked links i [] links :=
  ⟨rfl, fun _ h => absurd h not_mem_nil, fun _ _ => rfl, fun _ => by simp⟩

lemma Unlinked.concat (h : Unlinked links i outs rest) (hj : rest.get? j = some inputs)
    (hi : i ∈ inputs) : Unlinked links i (outs ++ [j]) (rest.set j (inputs.erase i)) := by
  have hmem : j ∈ rest.keys := Keyed.mem_keys_of_get? hj
  refine ⟨(Keyed.keys_set_of_mem _ hmem).trans h.keys, fun l hl => ?_, fun l hl => ?_, fun l => ?_⟩
  · rcases mem_append.1 hl with hl | hl
    · exact h.named l hl
    · rw [mem_singleton.1 hl, ← h.keys]
      exact hmem
  · rw [mem_append, mem_singleton, not_or] at hl
    rw [Keyed.get?_set_of_ne _ _ hl.2, h.other l hl.1]
  · have hbef := h.perm l
    rw [Keyed.get?_set, count_append, count_singleton]
    by_cases hl : l = j
    · rw [hl, hj] at hbef
      rw [hl, if_pos rfl, if_pos (beq_self_eq_true j)]
      exact perm_middle.trans (((perm_cons_erase hi).symm.append_right _).trans hbef)
    · rwa [if_neg hl, if_neg (by simpa using Ne.symm hl)]

lemma Unlinked.times_add (h : Unlinked links i outs rest) (j k : ℕ) :
    rest.times j k + (if k = i then outs.count j else 0) = links.times j k := by
  have hcnt := (h.perm j).count_eq k
  rw [count_append, count_replicate] at hcnt
  simpa only [beq_iff_eq, eq_comm (a := i), times] using hcnt

lemma Unlinked.times (h : Unlinked links i outs rest) (j k : ℕ) :
    rest.times j k = links.times j k - if k = i then outs.count j else 0 :=
  Nat.eq_sub_of_add_eq (h.times_add j k)

lemma unlinked_of_eq_ok (h : unlink links i outs = .ok rest) : Unlinked links i outs rest := by
  refine of_foldlM_eq_ok _ h (unlinked_nil links i) ?_
  intro seen j _ before after _ hbef hst
  obtain ⟨inputs, hins, _, hdm, haft⟩ := bind₂_eq_ok.1 hst
  rw [← Except.ok.inj haft]
  exact hbef.concat (orFail_eq_ok.1 hins) (contains_iff_mem.1 (of_demand_eq_ok hdm))

end Links

namespace Elimination

variable {γ : Type}

def live (s : Elimination γ) : List ℕ := s.buckets.flatten

/-- No bucket holds a node twice, and every node of a bucket is filed under its degree. -/
structure Filed (buckets : List (List ℕ)) (degree : Keyed ℕ ℕ) : Prop where
  nodup : ∀ d, (buckets.getD d []).Nodup
  degree_eq : ∀ d, ∀ i ∈ buckets.getD d [], degree.get? i = some d

lemma lt_length_of_mem_getD (hi : i ∈ buckets.getD d []) : d < buckets.length := by
  by_contra hd
  rw [getD_eq_default _ _ (not_lt.1 hd)] at hi
  exact not_mem_nil hi

lemma mem_flatten_iff : i ∈ buckets.flatten ↔ ∃ d, i ∈ buckets.getD d [] := by
  rw [mem_flatten]
  constructor
  · rintro ⟨bucket, hbc, hi⟩
    obtain ⟨d, hd, rfl⟩ := mem_iff_getElem.1 hbc
    exact ⟨d, by rwa [getD_eq_getElem _ _ hd]⟩
  · rintro ⟨d, hi⟩
    have hd := lt_length_of_mem_getD hi
    rw [getD_eq_getElem _ _ hd] at hi
    exact ⟨_, getElem_mem hd, hi⟩

lemma headD_eq_getD (buckets : List (List ℕ)) : buckets.headD [] = buckets.getD 0 [] := by
  rw [headD_eq_head?_getD, head?_eq_getElem?, getD_eq_getElem?_getD]

lemma length_of_mem_iff {rest : List ℕ} (h : nodes.Nodup) (h' : rest.Nodup) (hi : i ∈ nodes)
    (hmem : ∀ j, j ∈ rest ↔ j ∈ nodes ∧ j ≠ i) : rest.length + 1 = nodes.length := by
  have hpm : rest.Perm (nodes.erase i) := by
    refine (perm_ext_iff_of_nodup h' (h.erase i)).2 fun j => ?_
    rw [hmem, h.mem_erase_iff, and_comm]
  rw [hpm.length_eq, length_erase_add_one hi]

lemma Filed.mem_bucket (h : Filed buckets degree) (hi : i ∈ buckets.flatten)
    (hd : degree.get? i = some d) : i ∈ buckets.getD d [] := by
  obtain ⟨e, he⟩ := mem_flatten_iff.1 hi
  have hde := h.degree_eq e i he
  rw [hd, some.injEq] at hde
  rwa [hde]

lemma Filed.nodup_flatten (h : Filed buckets degree) : buckets.flatten.Nodup := by
  have hbc : ∀ (d : ℕ) (hd : d < buckets.length), buckets[d] = buckets.getD d [] :=
    fun d hd => (getD_eq_getElem _ _ hd).symm
  refine List.nodup_flatten.2 ⟨fun bucket hmem => ?_, pairwise_iff_getElem.2 ?_⟩
  · obtain ⟨d, hd, rfl⟩ := mem_iff_getElem.1 hmem
    exact hbc d hd ▸ h.nodup d
  · intro d e hd he hlt i hid hie
    rw [hbc] at hid hie
    have hsm := (h.degree_eq d i hid).symm.trans (h.degree_eq e i hie)
    exact hlt.ne (some.inj hsm)

variable {s t u : Elimination γ}

lemma Filed.of_filter (h : Filed buckets degree)
    (hrest : ∀ d, rest.getD d [] = (buckets.getD d []).filter (· != i)) : Filed rest degree := by
  refine ⟨fun d => ?_, fun d j hj => ?_⟩
  · rw [hrest]
    exact (h.nodup d).filter _
  · rw [hrest] at hj
    exact h.degree_eq d j (mem_of_mem_filter hj)

lemma mem_flatten_of_filter (hrest : ∀ d, rest.getD d [] = (buckets.getD d []).filter (· != i))
    (j : ℕ) : j ∈ rest.flatten ↔ j ∈ buckets.flatten ∧ j ≠ i := by
  rw [mem_flatten_iff, mem_flatten_iff, ← exists_and_right]
  refine exists_congr fun d => ?_
  rw [hrest, mem_filter, bne_iff_ne]

lemma Filed.unfile_eq_ok (h : Filed s.buckets s.degree) (hi : i ∈ s.live) (hd : s.degree.get? i = some d) :
    ∃ buckets, s.unfile d i = .ok { s with buckets } ∧ buckets.length = s.buckets.length ∧
      ∀ e, buckets.getD e [] = (s.buckets.getD e []).filter (· != i) := by
  have hmem := h.mem_bucket hi hd
  have hlt := lt_length_of_mem_getD hmem
  refine ⟨s.buckets.set d ((s.buckets.getD d []).erase i), ?_, length_set, fun e => ?_⟩
  · rw [unfile, getElem?_eq_some_getD [] hlt, orFail_some, ok_bind, contains_iff_mem.2 hmem]
    rfl
  · rw [getD_set]
    by_cases he : e = d
    · rw [if_pos ⟨he, hlt⟩, he, (h.nodup d).erase_eq_filter]
    · -- the node is in no other bucket
      rw [if_neg (he ·.1), eq_comm, filter_eq_self]
      intro j hj
      rw [bne_iff_ne]
      rintro rfl
      exact he (some.inj ((h.degree_eq e j hj).symm.trans hd))

section Move

variable (hrest : ∀ e, rest.getD e [] =
  if e = d then i :: (buckets.getD e []).filter (· != i) else (buckets.getD e []).filter (· != i))

include hrest

lemma Filed.of_move (h : Filed buckets degree) : Filed rest (degree.set i d) := by
  refine ⟨fun e => ?_, fun e j hj => ?_⟩
  · rw [hrest]
    have hnd := (h.nodup e).filter (· != i)
    split_ifs
    · exact nodup_cons.2 ⟨by simp, hnd⟩
    · exact hnd
  · rw [hrest] at hj
    by_cases hji : j = i
    · rw [hji, Keyed.get?_set_self]
      split_ifs at hj with he
      · rw [he]
      · simp [hji] at hj
    · rw [Keyed.get?_set_of_ne _ _ hji]
      split_ifs at hj
      · exact h.degree_eq e j (mem_of_mem_filter ((mem_cons.1 hj).resolve_left hji))
      · exact h.degree_eq e j (mem_of_mem_filter hj)

lemma mem_flatten_of_move (hi : i ∈ buckets.flatten) (j : ℕ) : j ∈ rest.flatten ↔ j ∈ buckets.flatten := by
  rw [mem_flatten_iff] at hi ⊢
  rw [mem_flatten_iff]
  constructor
  · rintro ⟨e, hj⟩
    rw [hrest] at hj
    split_ifs at hj
    · rcases mem_cons.1 hj with rfl | hj
      · exact hi
      · exact ⟨e, mem_of_mem_filter hj⟩
    · exact ⟨e, mem_of_mem_filter hj⟩
  · rintro ⟨e, hj⟩
    by_cases hji : j = i
    · exact ⟨d, by rw [hrest, if_pos rfl, hji]; exact mem_cons_self⟩
    · have hmem : j ∈ (buckets.getD e []).filter (· != i) := mem_filter.2 ⟨hj, bne_iff_ne.2 hji⟩
      refine ⟨e, ?_⟩
      rw [hrest]
      split_ifs
      · exact mem_cons_of_mem i hmem
      · exact hmem

end Move

/-- Some nodes were filed anew, under the numbers of their neighbours, and no other was. -/
structure Refiles (s t : Elimination γ) (nodes : List ℕ) : Prop where
  eq : ∃ buckets degree, t = { s with buckets, degree }
  filed : Filed t.buckets t.degree
  length : t.buckets.length = s.buckets.length
  mem_live : ∀ j, j ∈ t.live ↔ j ∈ s.live
  degree : ∀ j, t.degree.get? j = if j ∈ nodes then some ((s.adjacent.get? j).getD []).length else s.degree.get? j

lemma Refiles.refl (h : Filed s.buckets s.degree) : Refiles s s [] := ⟨⟨_, _, rfl⟩, h, rfl, fun _ => .rfl, by simp⟩

lemma Refiles.concat {k : ℕ} (h : Refiles s t nodes) (h' : Refiles t u [k]) : Refiles s u (nodes ++ [k]) := by
  have hdg := h.degree
  obtain ⟨buckets, degree, rfl⟩ := h.eq
  obtain ⟨buckets', degree', rfl⟩ := h'.eq
  refine ⟨⟨_, _, rfl⟩, h'.filed, h'.length.trans h.length, fun j => (h'.mem_live j).trans (h.mem_live j), fun j => ?_⟩
  rw [h'.degree, hdg]
  by_cases hj : j = k
  · simp [hj]
  · simp [hj]

section

variable (h : Filed s.buckets s.degree)
include h

lemma Filed.refile_eq_ok {k : ℕ} (hk : k ∈ s.live) (har : s.adjacent.get? k = some around)
    (hlt : around.length < s.buckets.length) : ∃ t, s.refile k = .ok t ∧ Refiles s t [k] := by
  obtain ⟨d, hkd⟩ := mem_flatten_iff.1 hk
  have hd := h.degree_eq d k hkd
  by_cases hsm : d = around.length
  · refine ⟨s, ?_, ⟨_, _, rfl⟩, h, rfl, fun j => .rfl, fun j => ?_⟩
    · rw [refile, neighbours, har, orFail_some, ok_bind, hd, orFail_some, ok_bind, hsm, if_pos (beq_self_eq_true _)]
      rfl
    · split_ifs with hj
      · rw [mem_singleton.1 hj, hd, hsm, har, getD_some]
      · rfl
  · obtain ⟨buckets, hun, hlen, hbc⟩ := h.unfile_eq_ok hk hd
    have hlt' : around.length < buckets.length := hlen.symm ▸ hlt
    have hget := getElem?_eq_some_getD [] hlt'
    have hnew : ∀ e, (buckets.set around.length (k :: buckets.getD around.length [])).getD e [] =
        if e = around.length then k :: (s.buckets.getD e []).filter (· != k)
        else (s.buckets.getD e []).filter (· != k) := by
      intro e
      rw [getD_set]
      by_cases he : e = around.length
      · rw [if_pos ⟨he, hlt'⟩, if_pos he, he, hbc]
      · rw [if_neg (he ·.1), if_neg he, hbc]
    refine ⟨{ s with
        buckets := buckets.set around.length (k :: buckets.getD around.length [])
        degree := s.degree.set k around.length },
      ?_, ⟨_, _, rfl⟩, h.of_move hnew, (length_set).trans hlen, mem_flatten_of_move hnew hk, fun j => ?_⟩
    · rw [refile, neighbours, har, orFail_some, ok_bind, hd, orFail_some, ok_bind,
        if_neg fun hc => hsm (beq_iff_eq.1 hc), hun]
      simp only [hget, orFail_some, ok_bind]
      rfl
    · simp only [Keyed.get?_set, mem_singleton]
      split_ifs with hj
      · rw [hj, har, getD_some]
      · rfl

/-- Filing some nodes anew changes the degrees under which they are filed, and no other. -/
lemma Filed.foldlM_refile_eq_ok
    (hnd : ∀ k ∈ nodes, k ∈ s.live ∧ ∃ around, s.adjacent.get? k = some around ∧ around.length < s.buckets.length) :
    ∃ t, nodes.foldlM refile s = .ok t ∧ Refiles s t nodes := by
  refine foldlM_eq_ok (fun seen t => Refiles s t seen) (.refl h) ?_
  intro seen k later t hsp ht
  obtain ⟨hk, around, har, hlt⟩ := hnd k (by simp [hsp])
  have har' : t.adjacent.get? k = some around := by
    obtain ⟨buckets, degree, rfl⟩ := ht.eq
    exact har
  obtain ⟨u, hrf, hu⟩ := ht.filed.refile_eq_ok ((ht.mem_live k).2 hk) har' (ht.length.symm ▸ hlt)
  exact ⟨u, hrf, ht.concat hu⟩

/-- Retiring a node takes it out of the bucket of its degree and out of the lists of its
neighbours, which are filed under what is left of them. -/
lemma Filed.retire_eq_ok (hi : i ∈ s.live) (har : s.adjacent.get? i = some around)
    (hdg : s.degree.get? i = some around.length) (hnd : around.Nodup) (hsl : i ∉ around)
    (hbc : ∀ k ∈ around, k ∈ s.live ∧ ∃ others, s.adjacent.get? k = some others ∧ i ∈ others ∧ others.length ≤ s.buckets.length) :
    ∃ adjacent buckets degree, s.retire i = .ok { s with adjacent, buckets, degree, stack := s.stack ++ [i] } ∧
      Filed buckets degree ∧ buckets.length = s.buckets.length ∧ (∀ j, j ∈ buckets.flatten ↔ j ∈ s.live ∧ j ≠ i) ∧
      (∀ j, adjacent.get? j = if j ∈ around then (s.adjacent.get? j).map (·.erase i) else s.adjacent.get? j) ∧
      ∀ j, degree.get? j = if j ∈ around then some ((adjacent.get? j).getD []).length else s.degree.get? j := by
  obtain ⟨buckets, hun, hlen, hbck⟩ := h.unfile_eq_ok hi hdg
  have hls : ∀ k ∈ around, ∃ others, s.adjacent.get? k = some others ∧ i ∈ others := by
    intro k hk
    obtain ⟨-, others, hot, hmem, -⟩ := hbc k hk
    exact ⟨others, hot, hmem⟩
  obtain ⟨adjacent, hunl, -, had⟩ := Links.unlink_eq_ok hnd hls
  have hfl : Filed buckets s.degree := h.of_filter hbck
  have hlv : ∀ j, j ∈ buckets.flatten ↔ j ∈ s.live ∧ j ≠ i := mem_flatten_of_filter hbck
  let t : Elimination γ := { s with adjacent, buckets }
  have hsh : ∀ k ∈ around, k ∈ t.live ∧ ∃ others, t.adjacent.get? k = some others ∧
      others.length < t.buckets.length := by
    intro k hk
    obtain ⟨hk', others, hot, hmem, hle⟩ := hbc k hk
    refine ⟨(hlv k).2 ⟨hk', fun e => hsl (e ▸ hk)⟩, others.erase i, ?_, ?_⟩
    · rw [had, if_pos hk, hot]
      rfl
    · have hpos : 0 < others.length := length_pos_of_mem hmem
      rw [length_erase_of_mem hmem, hlen]
      omega
  obtain ⟨u, hfld, hu⟩ := foldlM_refile_eq_ok hfl hsh
  obtain ⟨buckets', degree', rfl⟩ := hu.eq
  refine ⟨adjacent, buckets', degree', ?_, hu.filed, hu.length.trans hlen,
    fun j => (hu.mem_live j).trans (hlv j), had, hu.degree⟩
  have hrm : s.remove i = .ok { s with adjacent, buckets } := by
    rw [remove, neighbours, har, orFail_some, ok_bind, hun]
    simp only [hunl, ok_bind]
    rfl
  have hag : neighbours { s with adjacent, buckets } i = .ok around := by
    rw [neighbours, had, if_neg hsl, har, orFail_some]
  rw [retire, hrm, ok_bind, hag, ok_bind, hfld]
  rfl

end

lemma getD_eq_nil_of_crowded? (h : s.crowded? = none) (hd : 3 ≤ d)
    (hlt : d + 1 < s.buckets.length) : s.buckets.getD d [] = [] := by
  rw [crowded?, findSome?_eq_none_iff] at h
  have hlt' : d < s.buckets.length := by omega
  refine head?_eq_none_iff.1 (h _ (mem_reverse.2 ?_))
  refine mem_iff_getElem.2 ⟨d - 3, by simp; omega, ?_⟩
  rw [getElem_drop, getElem_take, getD_eq_getElem _ _ hlt']
  congr 1
  omega

/-- When there is no node to take out, every bucket but the first is empty. -/
lemma eq_zero_of_idle (hone : s.buckets.getD 1 [] = [])
    (hdb : (if 3 < s.buckets.length then s.buckets.getD 2 [] else []) = [])
    (hcr : s.crowded? = none) (hi : i ∈ s.buckets.getD d []) (hd : d + 2 ≤ s.buckets.length) : d = 0 := by
  by_contra hne
  have hnil : s.buckets.getD d [] = [] := by
    rcases lt_or_ge d 3 with hlt | hge
    · obtain rfl | rfl : d = 1 ∨ d = 2 := by omega
      · exact hone
      · rwa [if_pos (by omega)] at hdb
    · exact getD_eq_nil_of_crowded? hcr hge (by omega)
  rw [hnil] at hi
  exact not_mem_nil hi

end Elimination

end TensorToolchain.LayoutChoice
