import TensorToolchain.Proofs.Faults
import TensorToolchain.Proofs.LayoutChoice.NearestAncestors

/-!
# Pruned links

Pruning goes over the inputs of every anchor that is no target and takes away those that are
boundary nodes or have been pruned. An anchor is pruned if the first of its inputs is taken away,
whatever the others are. So a join is pruned exactly if it is adrift: the first ancestors lead from
it to a boundary node. The walk over the inputs passes over the input after one that it takes away,
so that an input that is adrift is missed if it directly follows another that is taken away.
-/

namespace TensorToolchain.LayoutChoice

open List Option Keyed Walk

variable {fuel : ℕ} {w : Walk} {items : List ℕ}

namespace Walk

variable {kept : ℕ → Bool}

lemma run_induction {P : List ℕ → Prop} (her : ∀ items, ∀ k ∈ items, kept k = false → P items → P (items.erase k)) :
    ∀ (fuel pos : ℕ) (w : Walk), P w.items → P (run kept fuel pos w).items := by
  intro fuel
  induction fuel with
  | zero => exact fun _ _ h => h
  | succ fuel ih =>
    intro pos w hw
    rw [run]
    cases hk : w.items[pos]? with
    | none => exact hw
    | some k =>
      refine ih _ _ ?_
      cases hkp : kept k with
      | true => exact hw
      | false => exact her w.items k (mem_of_getElem? hk) hkp hw

lemma run_marked (kept : ℕ → Bool) (fuel pos : ℕ) (h : w.marked) : (run kept fuel pos w).marked := by
  induction fuel generalizing pos w with
  | zero => exact h
  | succ fuel ih =>
    rw [run]
    cases w.items[pos]? with
    | none => exact h
    | some k => exact ih _ (by rw [h, Bool.true_or])

/-- After the first item that is kept, no mark is made. -/
lemma run_unmarked (kept : ℕ → Bool) (fuel pos : ℕ) (hld : w.leading = false)
    (h : w.marked = false) : (run kept fuel pos w).marked = false := by
  induction fuel generalizing pos w with
  | zero => exact h
  | succ fuel ih =>
    rw [run]
    cases w.items[pos]? with
    | none => exact h
    | some k => exact ih _ (by rw [hld, Bool.false_and]) (by rw [h, hld]; rfl)

lemma over_marked (kept : ℕ → Bool) (items : List ℕ) :
    (Walk.over kept items).marked = items.head?.any fun k => !kept k := by
  cases items with
  | nil => rfl
  | cons k items =>
    rw [Walk.over, length_cons, run]
    cases hk : kept k with
    | true => simpa [hk] using run_unmarked kept items.length 1 (by simp) (by simp)
    | false => simpa [hk] using run_marked kept items.length 1 (by simp)

/-- An item that is not kept is erased if it only comes first or directly after items that are
kept. -/
lemma notMem_over {d : ℕ} (hd : kept d = false)
    (h : items.IsChain fun a b => b = d → kept a = true) : d ∉ (Walk.over kept items).items := by
  suffices hrun : ∀ (fuel pos : ℕ) (seen rest : List ℕ) (w : Walk), w.items = seen ++ rest →
      seen.length ≤ pos → (rest ≠ [] → seen.length = pos) → rest.length ≤ fuel → d ∉ seen →
      (rest.IsChain fun a b => b = d → kept a = true) → d ∉ (run kept fuel pos w).items from
    hrun items.length 0 [] items { items } rfl le_rfl (fun _ => rfl) le_rfl not_mem_nil h
  intro fuel
  induction fuel with
  | zero =>
    intro pos seen rest w hw _ _ hr hsn _
    rwa [run, hw, eq_nil_of_length_eq_zero (Nat.le_zero.1 hr), append_nil]
  | succ fuel ih =>
    intro pos seen rest w hw hle hpos hr hsn hch
    cases rest with
    | nil =>
      rw [append_nil] at hw
      rw [run, hw, getElem?_eq_none hle]
      rwa [hw]
    | cons k rest =>
      obtain rfl := hpos (cons_ne_nil k rest)
      have hk : w.items[seen.length]? = some k := by rw [hw]; simp
      obtain ⟨hnx, htl⟩ := isChain_cons.1 hch
      rw [length_cons] at hr
      rw [run, hk]
      dsimp only
      cases hkp : kept k with
      | true =>
        have hdk : d ≠ k := fun e => by rw [← e, hd] at hkp; cases hkp
        exact ih _ (seen ++ [k]) rest _ (by simpa using hw) (by simp) (fun _ => by simp) (by omega)
          (by simp [hsn, hdk]) htl
      | false =>
        -- the item after the erased one moves up and is passed over: it is not the one in question
        have hps : d ∉ rest.take 1 := by
          cases rest with
          | nil => exact not_mem_nil
          | cons y rest =>
            intro hy
            have hke := hnx y rfl (mem_singleton.1 hy).symm
            rw [hkp] at hke
            cases hke
        have hsh : (rest.drop 1).length ≤ fuel := by rw [length_drop]; omega
        have hdr : (rest.drop 1).IsChain fun a b => b = d → kept a = true := htl.drop 1
        by_cases hmem : k ∈ seen
        · -- an earlier occurrence is erased in place of this one
          have hdk : d ≠ k := fun e => hsn (e ▸ hmem)
          have hlen := length_erase_of_mem hmem
          have hpst := length_pos_of_mem hmem
          refine ih _ (seen.erase k ++ k :: rest.take 1) _ _ ?_ ?_ ?_ hsh ?_ hdr
          · simp [hw, erase_append_left _ hmem, -drop_one]
          · rw [length_append, length_cons, length_take]
            omega
          · intro hr'
            have : rest ≠ [] := fun e => hr' (by simp [e])
            have := length_pos_of_ne_nil this
            rw [length_append, length_cons, length_take]
            omega
          · simp only [mem_append, mem_cons, not_or]
            exact ⟨fun hme' => hsn (mem_of_mem_erase hme'), hdk, hps⟩
        · refine ih _ (seen ++ rest.take 1) _ _ ?_ ?_ ?_ hsh ?_ hdr
          · simp [hw, erase_append_right _ hmem, -drop_one]
          · rw [length_append, length_take]
            omega
          · intro hr'
            have : rest ≠ [] := fun e => hr' (by simp [e])
            have := length_pos_of_ne_nil this
            rw [length_append, length_take]
            omega
          · simp only [mem_append, not_or]
            exact ⟨hsn, hps⟩

end Walk

/-- What erasing an item leaves of a chain is a chain, if all that may follow the item may follow
anything. -/
lemma isChain_erase {R : ℕ → ℕ → Prop} {k : ℕ} (hk : ∀ c, R k c → ∀ a, R a c)
    (h : items.IsChain R) : (items.erase k).IsChain R := by
  by_cases hmem : k ∈ items
  · obtain ⟨before, after, -, rfl, her⟩ := exists_erase_eq hmem
    obtain ⟨hbef, haft, -⟩ := isChain_append.1 h
    obtain ⟨hnx, haft⟩ := isChain_cons.1 haft
    rw [her]
    exact isChain_append.2 ⟨hbef, haft, fun a _ c hc => hk c (hnx c hc) a⟩
  · rwa [erase_of_not_mem hmem]

namespace Graph

/-! ### Nodes that are adrift -/

/-- Whether the first ancestors lead from a node to a boundary node, at most so many steps up. -/
def adriftWithin (g : Graph) : ℕ → ℕ → Bool
  | 0, _ => false
  | fuel + 1, i => g.isBoundary i || (!g.isTarget i && (g.nearestOf i).head?.any (g.adriftWithin fuel))

/-- Whether the first ancestors lead from a node to a boundary node without meeting a target. -/
def adrift (g : Graph) (i : ℕ) : Bool := g.adriftWithin (i + 1) i

/-- Whether a walk comes to a node after another: it passes over what follows a node that it takes
away. -/
def Reaches (g : Graph) (a b : ℕ) : Prop := g.adrift b = true → g.isBoundary b = false → g.adrift a = false

instance (g : Graph) : DecidableRel g.Reaches := fun a b =>
  inferInstanceAs (Decidable (g.adrift b = true → g.isBoundary b = false → g.adrift a = false))

variable {g : Graph} {links : Links} {i k : ℕ} {inputs : List ℕ}

lemma adrift_of_isBoundary (h : g.isBoundary i) : g.adrift i := by rw [adrift, adriftWithin, h, Bool.true_or]

lemma isBoundary_of_not_adrift (h : g.adrift i = false) : g.isBoundary i = false := by
  cases hb : g.isBoundary i with
  | false => rfl
  | true => rw [adrift_of_isBoundary hb] at h; cases h

lemma adriftWithin_eq (hregular : g.Regular) (i : ℕ)
    (hi : g.isBoundary i ∨ i ∈ g.anchorLinks.keys) (hfl : i < fuel) : g.adriftWithin fuel i = g.adrift i := by
  induction i using Nat.strongRecOn generalizing fuel with
  | _ i ih =>
    obtain ⟨n, rfl⟩ := Nat.exists_eq_succ_of_ne_zero (ne_zero_of_lt hfl)
    rw [adrift, adriftWithin, adriftWithin]
    rcases hi with hb | hkey
    · rw [hb, Bool.true_or, Bool.true_or]
    · cases hhd : (g.nearestOf i).head? with
      | none => rfl
      | some a =>
        obtain ⟨hai, hkn⟩ := of_mem_nearestOf hregular hkey (mem_of_mem_head? hhd)
        rw [any_some, any_some, ih a hai hkn (by omega), ih a hai hkn hai]

/-- An anchor is adrift exactly if it is no target and its first ancestor is adrift. -/
lemma adrift_eq (hregular : g.Regular) (hi : i ∈ g.anchorLinks.keys) :
    g.adrift i = (!g.isTarget i && (g.nearestOf i).head?.any g.adrift) := by
  rw [adrift, adriftWithin, ((mem_keys_anchorLinks hregular).1 hi).2, Bool.false_or]
  congr 1
  cases hhd : (g.nearestOf i).head? with
  | none => rfl
  | some a =>
    obtain ⟨hai, hkn⟩ := of_mem_nearestOf hregular hi (mem_of_mem_head? hhd)
    exact adriftWithin_eq hregular a hkn hai

/-! ### A round of pruning -/

/-- Whether a round of pruning keeps a node among the inputs of joins. -/
def keeps (g : Graph) (links : Links) (k : ℕ) : Bool := !g.isBoundary k && links.contains k

/-- What a round of pruning makes of the inputs of a node. -/
def walk (g : Graph) (links : Links) (i : ℕ) (inputs : List ℕ) : Walk :=
  if g.isTarget i then { items := inputs } else Walk.over (g.keeps links) inputs

lemma keeps_iff : g.keeps links k ↔ g.isBoundary k = false ∧ k ∈ links.keys := by
  rw [keeps, Bool.and_eq_true, Bool.not_eq_true', Keyed.contains_iff]

/-- A round leaves what the walks leave of the nodes that are not marked. -/
lemma fst_pruneRound : (g.pruneRound links).1 = mapValues (fun _ w => w.items)
    ⟨(links.mapValues (g.walk links)).entries.filter fun e => !e.2.marked⟩ :=
  rfl

lemma get?_pruneRound (hks : links.keys.Nodup) (i : ℕ) : (g.pruneRound links).1.get? i =
    (((links.get? i).map (g.walk links i)).filter fun w => !w.marked).map Walk.items := by
  have hks' : (links.mapValues (g.walk links)).keys.Nodup := by rwa [keys_mapValues]
  rw [fst_pruneRound, get?_mapValues, get?_filter hks' fun _ w => !w.marked, get?_mapValues]

lemma of_get?_pruneRound (hks : links.keys.Nodup)
    (h : (g.pruneRound links).1.get? i = some inputs) : ∃ before, links.get? i = some before ∧
      (g.walk links i before).marked = false ∧ inputs = (g.walk links i before).items := by
  rw [get?_pruneRound hks, map_eq_some_iff] at h
  obtain ⟨w, hw, rfl⟩ := h
  rw [filter_eq_some_iff, map_eq_some_iff] at hw
  obtain ⟨⟨before, hbef, rfl⟩, hmr⟩ := hw
  exact ⟨before, hbef, by simpa using hmr, rfl⟩

lemma nodup_keys_pruneRound (hks : links.keys.Nodup) : (g.pruneRound links).1.keys.Nodup := by
  rw [fst_pruneRound, keys_mapValues]
  have hks' : (links.mapValues (g.walk links)).keys.Nodup := by rwa [keys_mapValues]
  exact hks'.sublist (filter_sublist.map Prod.fst)

lemma marked_of_pruneRound (h : (g.pruneRound links).2 = []) (hi : links.get? i = some inputs) :
    (g.walk links i inputs).marked = false := by
  have hmr : ((links.mapValues (g.walk links)).entries.filter (·.2.marked)).map Prod.fst = [] := h
  rw [map_eq_nil_iff, filter_eq_nil_iff] at hmr
  have hmem : (i, g.walk links i inputs) ∈ (links.mapValues (g.walk links)).entries :=
    mem_of_get? (by rw [get?_mapValues, hi, map_some])
  simpa using hmr _ hmem

lemma length_pruneRound_lt (h : (g.pruneRound links).2 ≠ []) :
    (g.pruneRound links).1.entries.length < links.entries.length := by
  obtain ⟨i, hi⟩ := exists_mem_of_ne_nil _ h
  obtain ⟨e, he, -⟩ := mem_map.1 hi
  obtain ⟨he, hmr⟩ := mem_filter.1 he
  have hlen : (g.pruneRound links).1.entries.length =
      ((links.mapValues (g.walk links)).entries.filter fun e => !e.2.marked).length :=
    length_map _
  have hall : (links.mapValues (g.walk links)).entries.length = links.entries.length := length_map _
  rw [hlen, ← hall]
  exact length_filter_lt_length_iff_exists.2 ⟨e, he, by simpa using hmr⟩

/-! ### What pruning leaves -/

/-- What pruning may leave of the inputs of a node: the first of them and all that are not adrift
stay, and the inputs of a target stay as they are. -/
structure Leaves (g : Graph) (i : ℕ) (inputs : List ℕ) : Prop where
  sublist : inputs.Sublist (g.nearestOf i)
  head : inputs.head? = (g.nearestOf i).head?
  target : g.isTarget i = true → inputs = g.nearestOf i
  count : ∀ k, g.adrift k = false → inputs.count k = (g.nearestOf i).count k
  chain : (g.nearestOf i).IsChain g.Reaches → inputs.IsChain g.Reaches

lemma leaves_nearestOf (g : Graph) (i : ℕ) : g.Leaves i (g.nearestOf i) :=
  ⟨Sublist.refl _, rfl, fun _ => rfl, fun _ _ => rfl, id⟩

/-- What may be left of the links after some rounds of pruning. -/
structure Pruned (g : Graph) (links : Links) : Prop where
  keys_nodup : links.keys.Nodup
  anchors : ∀ i ∈ links.keys, i ∈ g.anchorLinks.keys
  gone : ∀ i ∈ g.anchorLinks.keys, i ∉ links.keys → g.adrift i = true
  leaves : ∀ i inputs, links.get? i = some inputs → g.Leaves i inputs

lemma pruned_anchorLinks (hregular : g.Regular) : g.Pruned g.anchorLinks := by
  refine ⟨nodup_keys_anchorLinks hregular, fun _ hi => hi, fun i hi hi' => absurd hi hi', ?_⟩
  intro i inputs hi
  rw [get?_anchorLinks hregular] at hi
  split_ifs at hi
  rw [← some.inj hi]
  exact g.leaves_nearestOf i

section

variable (h : g.Pruned links) (hregular : g.Regular)
include h hregular

section

variable (hi : links.get? i = some inputs)
include hi

lemma Pruned.kind (hk : k ∈ inputs) : k < i ∧ (g.isBoundary k ∨ k ∈ g.anchorLinks.keys) :=
  of_mem_nearestOf hregular (h.anchors i (mem_keys_of_get? hi)) ((h.leaves i inputs hi).sublist.subset hk)

lemma Pruned.adrift_of_not_keeps (hk : k ∈ inputs) (hkp : g.keeps links k = false) : g.adrift k := by
  rcases (h.kind hregular hi hk).2 with hb | hkey
  · exact adrift_of_isBoundary hb
  · refine h.gone k hkey fun hmem => ?_
    rw [keeps_iff.2 ⟨((mem_keys_anchorLinks hregular).1 hkey).2, hmem⟩] at hkp
    cases hkp

lemma Pruned.keeps_of_not_adrift (hk : k ∈ inputs) (hk' : g.adrift k = false) : g.keeps links k := by
  by_contra hkp
  rw [Bool.not_eq_true] at hkp
  rw [h.adrift_of_not_keeps hregular hi hk hkp] at hk'
  cases hk'

lemma Pruned.leaves_walk (hmr : (g.walk links i inputs).marked = false) : g.Leaves i (g.walk links i inputs).items := by
  have hlv := h.leaves i inputs hi
  by_cases htgt : g.isTarget i
  · rwa [walk, if_pos htgt]
  · rw [walk, if_neg htgt] at hmr ⊢
    rw [over_marked] at hmr
    -- only nodes that are adrift are taken away, and never the first
    suffices hwl : (Walk.over (g.keeps links) inputs).items.Sublist inputs ∧
        g.Leaves i (Walk.over (g.keeps links) inputs).items from hwl.2
    refine run_induction (P := fun items => items.Sublist inputs ∧ g.Leaves i items) ?_ _ _ _ ⟨Sublist.refl _, hlv⟩
    rintro items k hk hkp ⟨hsub, hit⟩
    have had : g.adrift k := h.adrift_of_not_keeps hregular hi (hsub.subset hk) hkp
    refine ⟨erase_sublist.trans hsub, erase_sublist.trans hit.sublist, ?_,
      (absurd · htgt), fun j hj => ?_, fun hch => ?_⟩
    · rw [← hit.head]
      cases items with
      | nil => rfl
      | cons a items =>
        have ha : a ≠ k := by
          rintro rfl
          rw [hlv.head, ← hit.head, head?_cons, any_some, hkp] at hmr
          cases hmr
        rw [erase_cons_tail (by simpa using ha), head?_cons, head?_cons]
    · have hjk : j ≠ k := fun e => by rw [e, had] at hj; cases hj
      rw [count_erase_of_ne hjk, hit.count j hj]
    · refine isChain_erase (fun c hc _ had' hb => ?_) (hit.chain hch)
      rw [hc had' hb] at had
      cases had

end

lemma Pruned.pruneRound : g.Pruned (g.pruneRound links).1 := by
  refine ⟨nodup_keys_pruneRound h.keys_nodup, fun i hi => ?_, fun i hi hgn => ?_, ?_⟩
  · obtain ⟨inputs, hins⟩ := exists_get? hi
    obtain ⟨before, hbef, -⟩ := of_get?_pruneRound h.keys_nodup hins
    exact h.anchors i (mem_keys_of_get? hbef)
  · by_cases hmem : i ∈ links.keys
    · -- a node goes if it is marked, so that its first input is adrift
      obtain ⟨inputs, hins⟩ := exists_get? hmem
      have hmr : (g.walk links i inputs).marked := by
        rw [← get?_eq_none, get?_pruneRound h.keys_nodup, hins, map_some, filter_some] at hgn
        by_contra hmr
        rw [Bool.not_eq_true] at hmr
        rw [hmr] at hgn
        cases hgn
      rw [walk] at hmr
      split_ifs at hmr with htgt
      rw [over_marked] at hmr
      obtain ⟨a, ha, hkp⟩ := (any_eq_true _ _).1 hmr
      rw [adrift_eq hregular hi, ← (h.leaves i inputs hins).head, ha, any_some,
        h.adrift_of_not_keeps hregular hins (mem_of_mem_head? ha) (by simpa using hkp)]
      simpa using htgt
    · exact h.gone i hi hmem
  · intro i inputs hi
    obtain ⟨before, hbef, hmr, rfl⟩ := of_get?_pruneRound h.keys_nodup hi
    exact h.leaves_walk hregular hbef hmr

lemma Pruned.prune (hfl : links.entries.length < fuel) : ∃ before, g.Pruned before ∧
      (g.pruneRound before).2 = [] ∧ g.prune fuel links = (g.pruneRound before).1 := by
  induction fuel generalizing links with
  | zero => exact absurd hfl (Nat.not_lt_zero _)
  | succ fuel ih =>
    have hpr : g.prune (fuel + 1) links = if (g.pruneRound links).2.isEmpty then
      (g.pruneRound links).1 else g.prune fuel (g.pruneRound links).1 := rfl
    by_cases hmr : (g.pruneRound links).2 = []
    · exact ⟨links, h, hmr, by rw [hpr, hmr]; rfl⟩
    · have hlt := length_pruneRound_lt hmr
      obtain ⟨before, hbef, hno, hlst⟩ := ih (h.pruneRound hregular) (by omega)
      refine ⟨before, hbef, hno, ?_⟩
      rw [hpr, if_neg (by simpa using hmr), hlst]

lemma Pruned.not_adrift (hmrk : (g.pruneRound links).2 = []) (hi : i ∈ links.keys) : g.adrift i = false := by
  induction i using Nat.strongRecOn with
  | _ i ih =>
    obtain ⟨inputs, hins⟩ := exists_get? hi
    have hmr := marked_of_pruneRound hmrk hins
    rw [adrift_eq hregular (h.anchors i hi)]
    cases htgt : g.isTarget i with
    | true => rfl
    | false =>
      rw [walk, htgt, if_neg Bool.false_ne_true, over_marked] at hmr
      rw [← (h.leaves i inputs hins).head]
      cases hhd : inputs.head? with
      | none => rfl
      | some a =>
        rw [hhd, any_some, Bool.not_eq_false'] at hmr
        obtain ⟨hai, -⟩ := h.kind hregular hins (mem_of_mem_head? hhd)
        rw [any_some, ih a hai (keeps_iff.1 hmr).2]
        rfl

end

lemma get?_pruneRound_of_unmarked (hks : links.keys.Nodup) (h : (g.pruneRound links).2 = [])
    (i : ℕ) : (g.pruneRound links).1.get? i = (links.get? i).map fun inputs => (g.walk links i inputs).items := by
  rw [get?_pruneRound hks]
  cases hi : links.get? i with
  | none => rfl
  | some inputs =>
    rw [map_some, filter_some, marked_of_pruneRound h hi]
    rfl

/-- Pruning leaves the anchors that are not adrift. A join among them lists no anchor that is
adrift any more, if the walk over its inputs comes to all of them. -/
lemma prune_spec (hregular : g.Regular) (hfl : g.anchorLinks.entries.length < fuel) :
    g.Pruned (g.prune fuel g.anchorLinks) ∧
      (∀ i, i ∈ (g.prune fuel g.anchorLinks).keys ↔ i ∈ g.anchorLinks.keys ∧ g.adrift i = false) ∧
      ∀ i inputs, (g.prune fuel g.anchorLinks).get? i = some inputs → g.isTarget i = false →
        (g.nearestOf i).IsChain g.Reaches → ∀ k ∈ inputs, g.isBoundary k ∨ g.adrift k = false := by
  obtain ⟨before, hbef, hmr, hlst⟩ := (pruned_anchorLinks hregular).prune hregular hfl
  have hget := get?_pruneRound_of_unmarked hbef.keys_nodup hmr
  rw [hlst]
  refine ⟨hbef.pruneRound hregular, fun i => ?_, fun i inputs hi htgt hch k hk => ?_⟩
  · have hks : i ∈ (g.pruneRound before).1.keys ↔ i ∈ before.keys := by
      rw [Keyed.mem_keys, hget, isSome_map, Keyed.mem_keys]
    rw [hks]
    refine ⟨fun hi => ⟨hbef.anchors i hi, hbef.not_adrift hregular hmr hi⟩, fun hi => ?_⟩
    by_contra hgn
    rw [hbef.gone i hi.1 hgn] at hi
    cases hi.2
  · rw [hget, map_eq_some_iff] at hi
    obtain ⟨items, hit, rfl⟩ := hi
    by_contra had
    rw [not_or, Bool.not_eq_true, Bool.not_eq_false] at had
    -- an anchor that is adrift is gone before the last round, which takes it away
    have hgn : g.keeps before k = false := by
      rw [← Bool.not_eq_true, keeps_iff]
      rintro ⟨-, hmem⟩
      rw [hbef.not_adrift hregular hmr hmem] at had
      cases had.2
    rw [walk, htgt] at hk
    refine notMem_over hgn ?_ hk
    refine IsChain.imp_of_mem_imp (fun a b ha _ hab hbk => ?_) ((hbef.leaves i items hit).chain hch)
    rw [hbk] at hab
    exact hbef.keeps_of_not_adrift hregular hit ha (hab had.2 had.1)

end Graph

end TensorToolchain.LayoutChoice
