import TensorToolchain.Firmware.Placement
import TensorToolchain.Proofs.Faults
import TensorToolchain.Proofs.Keyed

/-!
# Placements without overlap

If the graph is complete and different data has different names, there is a placement, and every
record is aligned, ends within the reported size, and is apart from the records of other parameters
or of tensors of other storages. Names matter since records are looked up by them: of two parameters
with one name, the second takes the record of the first.
-/

namespace TensorToolchain.Firmware

open List

/-! ### Buffers in memory

Buffers that are placed one after another are apart. In the arena buffers of one storage may
overlap, but the storages follow one another, each as long as its longest buffer needs.
-/

lemma le_alignUp (offset width : Nat) : offset ≤ alignUp offset width := by
  rw [alignUp]
  split_ifs <;> omega

lemma dvd_alignUp (offset : Nat) {width : Nat} (h : 0 < width) : width ∣ alignUp offset width := by
  rw [alignUp]
  have hlt := Nat.mod_lt offset h
  have hdiv := Nat.div_add_mod offset width
  split_ifs with hmod
  · refine ⟨offset / width + 1, ?_⟩
    rw [mul_add]
    omega
  · exact Nat.dvd_of_mod_eq_zero (by simpa using hmod)

/-- Neither of two buffers starts before the other ends. -/
def Placed.Apart (p q : Placed) : Prop := p.stop ≤ q.offset ∨ q.stop ≤ p.offset deriving Decidable

lemma le_stop_place (cursor : Nat) (b : Buffer) : cursor ≤ (place cursor b).stop :=
  le_trans (le_alignUp _ _) (Nat.le_add_right _ _)

/-- What is placed in order lies after the cursor, each buffer after those before it. -/
lemma pairwise_placeInOrder (cursor : Nat) (buffers : List (String × Buffer)) :
    (∀ p ∈ placeInOrder cursor buffers, cursor ≤ p.2.offset) ∧
      (placeInOrder cursor buffers).Pairwise fun p q => p.2.stop ≤ q.2.offset := by
  induction buffers generalizing cursor with
  | nil => simp [placeInOrder]
  | cons b buffers ih =>
    obtain ⟨haft, hpr⟩ := ih (place cursor b.2).stop
    rw [placeInOrder, forall_mem_cons, pairwise_cons]
    exact ⟨⟨le_alignUp _ _, fun p hp => le_trans (le_stop_place _ _) (haft p hp)⟩, haft, hpr⟩

lemma placeInOrder_map (cursor : Nat) (buffers : List (String × Buffer)) :
    (placeInOrder cursor buffers).map (fun p => (p.1, p.2.buffer)) = buffers := by
  induction buffers generalizing cursor with
  | nil => rfl
  | cons b buffers ih => exact congrArg _ (ih _)

lemma exists_place_of_mem {cursor : Nat} {buffers : List (String × Buffer)} {p : String × Placed}
    (hp : p ∈ placeInOrder cursor buffers) : ∃ cursor', p.2 = place cursor' p.2.buffer := by
  induction buffers generalizing cursor with
  | nil => cases hp
  | cons b buffers ih =>
    rcases mem_cons.1 hp with rfl | hp
    · exact ⟨cursor, rfl⟩
    · exact ih hp

/-- What is placed in order ends no later than the last of it. -/
lemma stop_le_stopOf (cursor : Nat) (buffers : List (String × Buffer)) :
    cursor ≤ stopOf cursor ((placeInOrder cursor buffers).map Prod.snd) ∧
      ∀ p ∈ placeInOrder cursor buffers, p.2.stop ≤ stopOf cursor ((placeInOrder cursor buffers).map Prod.snd) := by
  induction buffers generalizing cursor with
  | nil => simp [placeInOrder, stopOf]
  | cons b buffers ih =>
    obtain ⟨hle, hall⟩ := ih (place cursor b.2).stop
    exact ⟨le_trans (le_stop_place _ _) hle, forall_mem_cons.2 ⟨hle, hall⟩⟩

/-! ### Storages -/

lemma stop_le_storageStop (cursor : Nat) (buffers : List Buffer) :
    cursor ≤ storageStop cursor buffers ∧ ∀ b ∈ buffers, (place cursor b).stop ≤ storageStop cursor buffers := by
  suffices hfl : ∀ stop, stop ≤ buffers.foldl (fun stop b => max stop (place cursor b).stop) stop ∧
      ∀ b ∈ buffers, (place cursor b).stop ≤ buffers.foldl (fun stop b => max stop (place cursor b).stop) stop from
    hfl cursor
  induction buffers with
  | nil => simp
  | cons b buffers ih =>
    intro stop
    obtain ⟨hle, hall⟩ := ih _
    exact ⟨le_trans (le_max_left _ _) hle, forall_mem_cons.2 ⟨le_trans (le_max_right _ _) hle, hall⟩⟩

lemma le_arenaStop (cursor : Nat) (storages : List (Int × List Buffer)) : cursor ≤ arenaStop cursor storages := by
  induction storages generalizing cursor with
  | nil => exact le_refl _
  | cons e storages ih => exact le_trans (stop_le_storageStop cursor e.2).1 (ih _)

def startOf (cursor : Nat) (storages : List (Int × List Buffer)) (storage : Int) : Nat :=
  ((storageStarts cursor storages).lookup storage).getD 0

lemma startOf_cons (cursor : Nat) (e : Int × List Buffer) (storages : List (Int × List Buffer)) (storage : Int) :
    startOf cursor (e :: storages) storage =
      if storage = e.1 then cursor else startOf (storageStop cursor e.2) storages storage := by
  rw [startOf, storageStarts, lookup_cons]
  by_cases h : storage = e.1
  · simp [h]
  · rw [beq_false_of_ne h, if_neg h]
    rfl

/-- One storage ends before another starts. -/
def Precedes (cursor : Nat) (storages : List (Int × List Buffer)) (e e' : Int × List Buffer) : Prop :=
  storageStop (startOf cursor storages e.1) e.2 ≤ startOf cursor storages e'.1

/-- Every storage lies within the arena, after those before it. -/
lemma storages_apart (cursor : Nat) {storages : List (Int × List Buffer)} (hks : (storages.map Prod.fst).Nodup) :
    (∀ e ∈ storages, cursor ≤ startOf cursor storages e.1 ∧
      storageStop (startOf cursor storages e.1) e.2 ≤ arenaStop cursor storages) ∧
    storages.Pairwise (Precedes cursor storages) := by
  induction storages generalizing cursor with
  | nil => simp
  | cons e storages ih =>
    rw [map_cons, nodup_cons] at hks
    obtain ⟨hwt, hpr⟩ := ih _ hks.2
    have hhd : startOf cursor (e :: storages) e.1 = cursor := by rw [startOf_cons, if_pos rfl]
    have htl : ∀ e' ∈ storages, startOf cursor (e :: storages) e'.1 = startOf (storageStop cursor e.2) storages e'.1 := by
      intro e' he'
      rw [startOf_cons, if_neg]
      exact fun heq => hks.1 (heq ▸ mem_map_of_mem he')
    rw [forall_mem_cons, pairwise_cons, hhd]
    refine ⟨⟨⟨le_refl _, le_arenaStop _ _⟩, fun e' he' => ?_⟩, fun e' he' => ?_, ?_⟩
    · rw [htl e' he']
      exact ⟨le_trans (stop_le_storageStop cursor e.2).1 (hwt e' he').1, (hwt e' he').2⟩
    · rw [Precedes, hhd, htl e' he']
      exact (hwt e' he').1
    · refine hpr.imp_of_mem fun he' he'' h => ?_
      rwa [Precedes, htl _ he', htl _ he'']

lemma byStorage_concat (buffers : List Buffer) (b : Buffer) : byStorage (buffers ++ [b]) =
    (byStorage buffers).set b.storage (((byStorage buffers).get? b.storage).getD [] ++ [b]) := by
  rw [byStorage, foldl_append]
  rfl

lemma byStorage_spec (buffers : List Buffer) : (byStorage buffers).keys.Nodup ∧
    ∀ b ∈ buffers, ∃ listed, (byStorage buffers).get? b.storage = some listed ∧ b ∈ listed := by
  induction buffers using reverseRecOn with
  | nil => simp [byStorage, Keyed.keys]
  | append_singleton buffers b ih =>
    obtain ⟨hks, hls⟩ := ih
    rw [byStorage_concat]
    refine ⟨Keyed.nodup_keys_set _ _ hks, fun c hc => ?_⟩
    rw [Keyed.get?_set]
    split_ifs with hst
    · refine ⟨_, rfl, ?_⟩
      rcases mem_append.1 hc with hc | hc
      · obtain ⟨listed, hget, hmem⟩ := hls c hc
        rw [← hst, hget]
        exact mem_append_left _ hmem
      · exact mem_append_right _ hc
    · rcases mem_append.1 hc with hc | hc
      · exact hls c hc
      · exact absurd (congrArg Buffer.storage (mem_singleton.1 hc)) hst

def placeAmong (buffers : List Buffer) (b : Buffer) : Placed := place (startOf 0 (byStorage buffers).entries b.storage) b

/-- Buffers of an arena end within it, and are apart if their storages differ. -/
lemma arena_apart (buffers : List Buffer) :
    (∀ b ∈ buffers, (placeAmong buffers b).stop ≤ arenaStop 0 (byStorage buffers).entries) ∧
    ∀ b ∈ buffers, ∀ c ∈ buffers, b.storage ≠ c.storage → (placeAmong buffers b).Apart (placeAmong buffers c) := by
  obtain ⟨hks, hls⟩ := byStorage_spec buffers
  obtain ⟨hwt, hpr⟩ := storages_apart 0 hks
  -- each buffer lies within the part of the arena that its storage takes up
  have hst : ∀ b ∈ buffers, ∃ listed, (b.storage, listed) ∈ (byStorage buffers).entries ∧
      (placeAmong buffers b).stop ≤ storageStop (startOf 0 (byStorage buffers).entries b.storage) listed := by
    intro b hb
    obtain ⟨listed, hget, hmem⟩ := hls b hb
    exact ⟨listed, Keyed.mem_of_get? hget, (stop_le_storageStop _ listed).2 b hmem⟩
  refine ⟨fun b hb => ?_, fun b hb c hc hne => ?_⟩
  · obtain ⟨listed, hmem, hstp⟩ := hst b hb
    exact le_trans hstp (hwt _ hmem).2
  · obtain ⟨listed, hmem, hstp⟩ := hst b hb
    obtain ⟨listed', hme', hst'⟩ := hst c hc
    have hor : (byStorage buffers).entries.Pairwise fun e e' =>
        Precedes 0 (byStorage buffers).entries e e' ∨ Precedes 0 (byStorage buffers).entries e' e :=
      hpr.imp .inl
    have : Std.Symm fun e e' =>
        Precedes 0 (byStorage buffers).entries e e' ∨ Precedes 0 (byStorage buffers).entries e' e := ⟨fun _ _ => .symm⟩
    rcases hor.forall hmem hme' fun heq => hne (congrArg Prod.fst heq) with h | h
    · exact .inl (le_trans (le_trans hstp h) (le_alignUp _ _))
    · exact .inr (le_trans (le_trans hst' h) (le_alignUp _ _))

variable {key : String} {x : EntryRef × String}

/-! ### Data of a graph -/

/-- What shares the arena. -/
inductive Tenancy where | activations | inputs | outputs

variable {t : Tenancy}

/-- How many data entries a node has: one for each result of its call, and at least one. -/
def Node.entryCount (node : Node) : Nat :=
  match node.kind with
  | .operator (.ok call) => max 1 call.results
  | _ => 1

lemma Node.entryCount_pos (node : Node) : 0 < node.entryCount := by
  rw [entryCount]
  split <;> omega

namespace Graph

/-- A data entry of a graph. -/
def HasEntry (g : Graph) (r : EntryRef) : Prop := r.index < (g.nodes[r.node]?.map Node.entryCount).getD 0
  deriving Decidable

/-- Whether a node is an argument or can be called. What does nothing may only reshape, and stays
inside the graph. -/
def canCall (g : Graph) (index : Nat) (node : Node) : Bool :=
  match node.kind with
  | .argument => true
  | .operator (.ok call) => call.function != noOperation ||
      (node.name == reshapeNode && call.results == 1 && !g.leaves ⟨index, 0⟩)
  | _ => false

/-- A graph that describes all that it mentions and can be called. -/
structure Complete (g : Graph) : Prop where
  arguments : ∀ a ∈ g.arguments, a < g.nodes.length
  results : ∀ r ∈ g.results, g.HasEntry r
  entries : ∀ x ∈ g.nodes.zipIdx, ∀ index < x.1.entryCount, (g.buffer ⟨x.2, index⟩).isOk = true
  nodes : ∀ x ∈ g.nodes.zipIdx, g.canCall x.2 x.1 = true

def bufferOf (g : Graph) (r : EntryRef) : Buffer := (g.buffer r).toOption.getD default

def nodeAt (g : Graph) (i : Nat) : Node := g.nodes[i]?.getD default

/-- The data entry of a parameter: the first result of the first node of its name. -/
def parameterRef (g : Graph) (key : String) : EntryRef := ⟨g.nodes.findIdx (·.name == key), 0⟩

/-- The results of a node that stay inside the graph, with the names of their records. -/
def inside (g : Graph) (x : Node × Nat) : List (EntryRef × String) :=
  match x.1.kind with
  | .operator (.ok call) =>
    if call.function == noOperation then []
    else ((List.range call.results).filter fun j => !g.leaves ⟨x.2, j⟩).map fun j => (⟨x.2, j⟩, resultName x.1.name j)
  | _ => []

/-- The tensors that share the arena, with the names of their records: results of operators that
stay inside the graph, arguments that are no parameters, and results that leave the graph. -/
def tensors (g : Graph) (params : List String) (o : Options) : Tenancy → List (EntryRef × String)
  | .activations => g.nodes.zipIdx.flatMap g.inside
  | .inputs => if o.inputs then
      (g.arguments.filter fun a => !(g.nodes[a]?.any (params.contains ·.name))).map fun a =>
        (⟨a, 0⟩, identifier (g.nodeAt a).name)
      else []
  | .outputs => if o.outputs then g.results.map fun r => (r, resultName (g.nodeAt r.node).name r.index) else []

def named (g : Graph) (l : List (EntryRef × String)) : List (String × Buffer) := l.map fun x => (x.2, g.bufferOf x.1)

def arena (g : Graph) (params : List String) (o : Options) : List Buffer :=
  (g.named (g.tensors params o .activations) ++ g.named (g.tensors params o .inputs) ++
    g.named (g.tensors params o .outputs)).map Prod.snd

def parameters (g : Graph) (params : List String) : List (String × Buffer) :=
  params.map fun key => (identifier key, g.bufferOf (g.parameterRef key))

end Graph

/-- The records of a tenancy. -/
def Placement.records (p : Placement) : Tenancy → Keyed String Placed
  | .activations => p.activations
  | .inputs => p.inputs
  | .outputs => p.outputs

/-- What a placement of a complete graph is. -/
structure Placement.Places (p : Placement) (g : Graph) (params : List String) (o : Options) : Prop where
  weights : p.weights = .ofList (placeInOrder 0 (g.parameters params))
  weightsSize : p.weightsSize = stopOf 0 ((placeInOrder 0 (g.parameters params)).map Prod.snd)
  records : ∀ t, g.tensors params o t ≠ [] → p.records t =
    .ofList ((g.named (g.tensors params o t)).map fun x => (x.1, placeAmong (g.arena params o) x.2))
  activationsSize : p.activationsSize = arenaStop 0 (byStorage (g.arena params o)).entries

variable {g : Graph} {params : List String} {o : Options} {p : Placement} {r : EntryRef}

/-! ### Placements of complete graphs -/

namespace Graph

lemma hasEntry_zero {i : Nat} (hi : i < g.nodes.length) : g.HasEntry ⟨i, 0⟩ := by
  simp [HasEntry, getElem?_eq_getElem hi, Node.entryCount_pos]

lemma hasEntry_parameterRef (hkey : ∃ node ∈ g.nodes, node.name = key) : g.HasEntry (g.parameterRef key) := by
  obtain ⟨node, hnd, hnm⟩ := hkey
  exact hasEntry_zero (findIdx_lt_length_of_exists ⟨node, hnd, beq_iff_eq.2 hnm⟩)

lemma hasEntry_of_mem_inside {x : Node × Nat} (hx : x ∈ g.nodes.zipIdx) {y : EntryRef × String} (hy : y ∈ g.inside x) :
    g.HasEntry y.1 := by
  rw [inside] at hy
  split at hy
  next call hkn =>
    split_ifs at hy
    · cases hy
    · obtain ⟨j, hj, rfl⟩ := mem_map.1 hy
      have hlt : j < call.results := mem_range.1 (mem_filter.1 hj).1
      rw [HasEntry, mem_zipIdx_iff_getElem?.1 hx]
      simp only [Option.map_some, Option.getD_some, Node.entryCount, hkn]
      omega
  next => cases hy

namespace Complete

variable (hg : g.Complete)
include hg

lemma buffer_eq (hr : g.HasEntry r) : g.buffer r = .ok (g.bufferOf r) := by
  rw [HasEntry] at hr
  cases hnd : g.nodes[r.node]? with
  | none => simp [hnd] at hr
  | some node =>
    have hok := hg.entries (node, r.node) (mem_zipIdx_iff_getElem?.2 hnd) r.index (by simpa [hnd] using hr)
    rw [bufferOf]
    cases hb : g.buffer r with
    | error e => simp [hb, Except.isOk, Except.toBool] at hok
    | ok b => rfl

lemma hasEntry_of_mem_tensors (hx : x ∈ g.tensors params o t) : g.HasEntry x.1 := by
  cases t with
  | activations =>
    obtain ⟨y, hy, hx⟩ := mem_flatMap.1 hx
    exact hasEntry_of_mem_inside hy hx
  | inputs =>
    obtain ⟨-, hx⟩ : o.inputs ∧ _ := by simpa only [tensors, mem_ite_nil_right] using hx
    obtain ⟨a, ha, rfl⟩ := mem_map.1 hx
    exact hasEntry_zero (hg.arguments a (mem_filter.1 ha).1)
  | outputs =>
    obtain ⟨-, hx⟩ : o.outputs ∧ _ := by simpa only [tensors, mem_ite_nil_right] using hx
    obtain ⟨r, hr, rfl⟩ := mem_map.1 hx
    exact hg.results r hr

lemma parameterBuffers_eq_ok (hpr : ∀ key ∈ params, ∃ node ∈ g.nodes, node.name = key) :
    parameterBuffers g params = .ok (g.parameters params) := by
  refine mapM_eq_ok fun key hkey => ?_
  have hb := hg.buffer_eq (hasEntry_parameterRef (hpr key hkey))
  have hall : (g.arguments.all (· < g.nodes.length)) := by simpa using hg.arguments
  rw [parameterRef] at hb ⊢
  simp [hb, hall]

lemma nodeBuffers_eq_ok {x : Node × Nat} (hx : x ∈ g.nodes.zipIdx) :
    ∃ listed, nodeBuffers g x.2 x.1 = .ok listed ∧ listed.getD [] = g.named (g.inside x) := by
  have hcl := hg.nodes x hx
  have hbf := fun y (hy : y ∈ g.inside x) => hg.buffer_eq (hasEntry_of_mem_inside hx hy)
  rw [canCall] at hcl
  rw [nodeBuffers]
  rw [inside] at hbf ⊢
  split at hcl
  next hkn =>
    rw [hkn]
    exact ⟨none, rfl, rfl⟩
  next call hkn =>
    rw [hkn] at hbf ⊢
    dsimp only at hbf ⊢
    rw [ok_bind]
    split_ifs at hbf ⊢ with hfn
    · simp only [bne, hfn, Bool.not_true, Bool.false_or, Bool.and_eq_true] at hcl
      exact ⟨none, by rw [hcl.1.1, hcl.1.2, hcl.2]; rfl, rfl⟩
    · have hls := mapM_eq_ok (f := fun j => g.buffer ⟨x.2, j⟩ >>= fun b => .ok (resultName x.1.name j, b))
        fun j hj => by
          rw [hbf _ (mem_map_of_mem hj), ok_bind]
      refine ⟨some _, congrArg (some <$> ·) hls, ?_⟩
      rw [named, map_map]
      rfl
  next => cases hcl

lemma exists_calls (params : List String) (o : Options) :
    ∃ calls, g.nodes.zipIdx.mapM (fun x => nodeBuffers g x.2 x.1) = .ok calls ∧
    (calls.filterMap id).flatten = g.named (g.tensors params o .activations) := by
  obtain ⟨calls, hcl, hall⟩ := exists_mapM_eq_ok fun x hx => hg.nodeBuffers_eq_ok hx
  refine ⟨calls, hcl, ?_⟩
  rw [tensors]
  clear hcl
  generalize g.nodes.zipIdx = nodes at hall
  induction hall with
  | nil => rfl
  | @cons x listed _ _ hx _ ih =>
    rw [flatMap_cons, named, map_append, ← named, ← named, ← hx, ← ih]
    cases listed <;> rfl

lemma endBuffers_eq_ok (ends : List (EntryRef × (Node → String))) (hen : ∀ e ∈ ends, g.HasEntry e.1) :
    endBuffers g true ends = .ok (ends.map fun e => (e.2 (g.nodeAt e.1.node), g.bufferOf e.1)) := by
  refine mapM_eq_ok fun e he => ?_
  have hb := hg.buffer_eq (hen e he)
  have hent := hen e he
  rw [HasEntry] at hent
  cases hnd : g.nodes[e.1.node]? with
  | none => simp [hnd] at hent
  | some node => simp [nodeAt, hnd, hb]

lemma endBuffers_inputs : ∃ inputs, endBuffers g true ((g.arguments.filter fun a =>
      !(g.nodes[a]?.any (params.contains ·.name))).map fun a => (⟨a, 0⟩, (identifier ·.name))) = .ok inputs ∧
    (if o.inputs then inputs else []) = g.named (g.tensors params o .inputs) := by
  refine ⟨_, hg.endBuffers_eq_ok _ fun e he => ?_, ?_⟩
  · obtain ⟨a, ha, rfl⟩ := mem_map.1 he
    exact hasEntry_zero (hg.arguments a (mem_filter.1 ha).1)
  · rw [tensors]
    split_ifs <;> simp [named]

lemma endBuffers_outputs : ∃ outputs, endBuffers g true (g.results.map fun r =>
      (r, (resultName ·.name r.index))) = .ok outputs ∧
    (if o.outputs then outputs else []) = g.named (g.tensors params o .outputs) := by
  refine ⟨_, hg.endBuffers_eq_ok _ fun e he => ?_, ?_⟩
  · obtain ⟨r, hr, rfl⟩ := mem_map.1 he
    exact hg.results r hr
  · rw [tensors]
    split_ifs <;> simp [named]

lemma exists_places (hpr : ∀ key ∈ params, ∃ node ∈ g.nodes, node.name = key) (hne : params ≠ []) (o : Options) :
    ∃ p, placeGraph g params o = .ok p ∧ p.Places g params o := by
  have han : params.isEmpty = false := by simpa using hne
  obtain ⟨calls, hcl, hac⟩ := hg.exists_calls params o
  obtain ⟨inputs, hins, hin⟩ := hg.endBuffers_inputs
  obtain ⟨outputs, hotp, hot⟩ := hg.endBuffers_outputs
  rw [placeGraph, hg.parameterBuffers_eq_ok hpr, ok_bind, hcl, ok_bind]
  simp only [han, Bool.not_false, Bool.or_true, Bool.true_or]
  rw [hins, ok_bind, hotp, ok_bind, hac, hin, hot]
  refine ⟨_, rfl, rfl, rfl, fun t ht => ?_, rfl⟩
  cases t with
  | activations => rfl
  | inputs =>
    have ho : o.inputs := by
      by_contra hoff
      exact ht (if_neg hoff)
    rw [if_pos ho] at hin
    subst hin
    simp only [Placement.records, ho, if_true]
    rfl
  | outputs =>
    have ho : o.outputs := by
      by_contra hoff
      exact ht (if_neg hoff)
    rw [if_pos ho] at hot
    subst hot
    simp only [Placement.records, ho, if_true]
    rfl

end Complete

end Graph

/-! ### Soundness -/

lemma width_pos {b : Buffer} (h : g.buffer r = .ok b) : 0 < b.width := by
  simp only [Graph.buffer, bind_eq_ok] at h
  obtain ⟨row, -, types, -, type, -, shapes, -, dims, -, storages, -, storage, -, t, hty, hb⟩ := h
  obtain rfl := Except.ok.inj hb
  rw [elementType] at hty
  split at hty
  next u hu =>
    have hwd : ∀ e ∈ elementTypes, 0 < e.2.1 := by decide
    obtain ⟨before, after, hsp, -⟩ := lookup_eq_some_iff.1 hu
    obtain rfl := Except.ok.inj hty
    exact hwd _ (hsp ▸ mem_append_right _ mem_cons_self)
  next => cases hty

/-- A placed buffer that is aligned to its elements and ends within some bytes. -/
def Placed.Fits (a : Placed) (size : Nat) : Prop := a.buffer.width ∣ a.offset ∧ a.stop ≤ size

/-- All data has a place of its own. Every parameter is recorded with its memory, aligned and within
the weights, and different parameters are apart. Every tensor of the arena is recorded with its
memory, aligned and within the arena, and tensors of different storages are apart. -/
structure Placement.Sound (p : Placement) (g : Graph) (params : List String) (o : Options) : Prop where
  weight : ∀ key ∈ params, ∃ w, p.weights.get? (identifier key) = some w ∧ g.buffer (g.parameterRef key) = .ok w.buffer ∧
    w.Fits p.weightsSize
  weights_apart : ∀ key ∈ params, ∀ key' ∈ params, key ≠ key' → ∀ w w', p.weights.get? (identifier key) = some w →
    p.weights.get? (identifier key') = some w' → w.Apart w'
  tensor : ∀ t, ∀ x ∈ g.tensors params o t, ∃ a, (p.records t).get? x.2 = some a ∧ g.buffer x.1 = .ok a.buffer ∧
    a.Fits p.activationsSize
  tensors_apart : ∀ t, ∀ x ∈ g.tensors params o t, ∀ t', ∀ x' ∈ g.tensors params o t', ∀ a a',
    (p.records t).get? x.2 = some a → (p.records t').get? x'.2 = some a' → a.buffer.storage ≠ a'.buffer.storage →
    a.Apart a'

/-- Different parameters have different names, and so have different tensors of one tenancy. -/
structure Graph.NamesApart (g : Graph) (params : List String) (o : Options) : Prop where
  parameters : (params.map identifier).Nodup
  tensors : ∀ t, ∀ x ∈ g.tensors params o t, ∀ y ∈ g.tensors params o t, x.2 = y.2 → x.1 = y.1

lemma Graph.bufferOf_mem_arena (hx : x ∈ g.tensors params o t) : g.bufferOf x.1 ∈ g.arena params o := by
  have hnm : (x.2, g.bufferOf x.1) ∈ g.named (g.tensors params o t) := mem_map.2 ⟨x, hx, rfl⟩
  refine mem_map.2 ⟨(x.2, g.bufferOf x.1), ?_, rfl⟩
  cases t <;> simp [hnm]

namespace Placement.Places

variable (h : p.Places g params o)
include h

lemma exists_weight (hkey : key ∈ params) (hpr : (params.map identifier).Nodup)
    (hb : g.buffer (g.parameterRef key) = .ok (g.bufferOf (g.parameterRef key))) :
    ∃ w, p.weights.get? (identifier key) = some w ∧ g.buffer (g.parameterRef key) = .ok w.buffer ∧
      w.Fits p.weightsSize := by
  have hmem : (identifier key, g.bufferOf (g.parameterRef key)) ∈ g.parameters params := mem_map.2 ⟨key, hkey, rfl⟩
  have hns : (g.parameters params).map Prod.fst = params.map identifier := map_map
  rw [← placeInOrder_map 0 (g.parameters params)] at hmem hns
  obtain ⟨⟨name, w⟩, hw, hsm⟩ := mem_map.1 hmem
  obtain ⟨rfl, hbf⟩ := Prod.mk.inj hsm
  rw [map_map] at hns
  rw [← hbf] at hb
  refine ⟨w, ?_, hb, ?_, ?_⟩
  · rw [h.weights]
    refine Keyed.get?_ofList_of_mem hw fun w' hw' => ?_
    rw [← hns] at hpr
    exact congrArg Prod.snd (inj_on_of_nodup_map hpr hw' hw rfl)
  · obtain ⟨cursor, hpl⟩ := exists_place_of_mem hw
    rw [show w = place cursor w.buffer from hpl]
    exact dvd_alignUp _ (width_pos hb)
  · rw [h.weightsSize]
    exact (stop_le_stopOf 0 _).2 _ hw

lemma weights_apart {name name' : String} (hne : name ≠ name') {w w' : Placed}
    (hw : p.weights.get? name = some w) (hw' : p.weights.get? name' = some w') : w.Apart w' := by
  rw [h.weights] at hw hw'
  have hor : (placeInOrder 0 (g.parameters params)).Pairwise fun x y => x.2.Apart y.2 :=
    (pairwise_placeInOrder 0 _).2.imp .inl
  have : Std.Symm fun x y : String × Placed => x.2.Apart y.2 := ⟨fun _ _ => .symm⟩
  exact hor.forall (Keyed.mem_of_get?_ofList hw) (Keyed.mem_of_get?_ofList hw') fun heq => hne (congrArg Prod.fst heq)

lemma get?_records (hns : g.NamesApart params o) (hx : x ∈ g.tensors params o t) :
    (p.records t).get? x.2 = some (placeAmong (g.arena params o) (g.bufferOf x.1)) := by
  rw [h.records t (ne_nil_of_mem hx), Graph.named, map_map]
  refine Keyed.get?_ofList_of_mem (mem_map.2 ⟨x, hx, rfl⟩) fun a ha => ?_
  obtain ⟨y, hy, heq⟩ := mem_map.1 ha
  have hen : y.1 = x.1 := hns.tensors t y hy x hx (congrArg Prod.fst heq)
  rw [← hen]
  exact (congrArg Prod.snd heq).symm

lemma sound (hg : g.Complete) (hpr : ∀ key ∈ params, ∃ node ∈ g.nodes, node.name = key)
    (hns : g.NamesApart params o) : p.Sound g params o where
  weight key hkey := h.exists_weight hkey hns.parameters (hg.buffer_eq (Graph.hasEntry_parameterRef (hpr key hkey)))
  weights_apart key hkey key' hky' hne w w' hw hw' :=
    h.weights_apart (fun heq => hne (inj_on_of_nodup_map hns.parameters hkey hky' heq)) hw hw'
  tensor t x hx := by
    have hb := hg.buffer_eq (hg.hasEntry_of_mem_tensors hx)
    refine ⟨_, h.get?_records hns hx, hb, dvd_alignUp _ (width_pos hb), ?_⟩
    rw [h.activationsSize]
    exact (arena_apart _).1 _ (Graph.bufferOf_mem_arena hx)
  tensors_apart t x hx t' x' hx' a a' ha ha' hne := by
    obtain rfl := Option.some.inj ((h.get?_records hns hx).symm.trans ha)
    obtain rfl := Option.some.inj ((h.get?_records hns hx').symm.trans ha')
    exact (arena_apart _).2 _ (Graph.bufferOf_mem_arena hx) _ (Graph.bufferOf_mem_arena hx') hne

end Placement.Places

/-- Data of a complete graph with parameters is placed soundly, if different data has different
names. -/
theorem exists_sound_placement (hg : g.Complete) (hparams : ∀ key ∈ params, ∃ node ∈ g.nodes, node.name = key)
    (hne : params ≠ []) (hnames : g.NamesApart params o) :
    ∃ p, placeGraph g params o = .ok p ∧ p.Sound g params o := by
  obtain ⟨p, hp, hplaces⟩ := hg.exists_places hparams hne o
  exact ⟨p, hp, hplaces.sound hg hparams hnames⟩

/-- A free argument, two parameters, an operator inside the graph and one whose result leaves it. -/
def smallGraph : Graph where
  nodes := [⟨"image", .argument, []⟩, ⟨"weight:0", .argument, []⟩, ⟨"bias", .argument, []⟩,
    ⟨"conv", .operator (.ok ⟨"fused_conv", 1⟩), [⟨0, 0⟩, ⟨1, 0⟩]⟩,
    ⟨"add", .operator (.ok ⟨"fused_add", 1⟩), [⟨3, 0⟩, ⟨2, 0⟩]⟩]
  arguments := [0, 1, 2]
  rows := [0, 1, 2, 3, 4]
  results := [⟨4, 0⟩]
  types := .ok ["int8", "int8", "int32", "int32", "int32"]
  shapes := .ok [[5], [3], [2], [2], [2]]
  storages := .ok [0, 1, 2, 3, 0]

theorem smallGraph_placed : ∃ p, placeGraph smallGraph ["weight:0", "bias"] {} = .ok p ∧
    p.Sound smallGraph ["weight:0", "bias"] {} :=
  exists_sound_placement ⟨by decide, by decide, by decide, by decide⟩ (by decide) (by decide)
    ⟨by decide, fun t => by cases t <;> decide⟩

/-- Two parameters with one name. -/
def sameNamed : Graph where
  nodes := [⟨"a:b", .argument, []⟩, ⟨"a_b", .argument, []⟩]
  arguments := [0, 1]
  rows := [0, 1]
  results := []
  types := .ok ["float32", "float32"]
  shapes := .ok [[1], [1]]
  storages := .ok [0, 1]

/-- Parameters whose names differ only in what an identifier cannot hold are given the same
bytes. -/
theorem sameNamed_overlap : sameNamed.Complete ∧ (∀ key ∈ ["a:b", "a_b"], ∃ node ∈ sameNamed.nodes, node.name = key) ∧
    ∃ p w, placeGraph sameNamed ["a:b", "a_b"] {} = .ok p ∧ p.weights.get? (identifier "a:b") = some w ∧
      p.weights.get? (identifier "a_b") = some w ∧ ¬ w.Apart w :=
  ⟨⟨by decide, by decide, by decide, by decide⟩, by decide, _, _, rfl, rfl, rfl, by decide⟩

end TensorToolchain.Firmware
