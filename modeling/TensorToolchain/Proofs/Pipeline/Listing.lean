import TensorToolchain.Proofs.Pipeline.Wires

/-!
# What a configuration lists

Once the modules are in order, the configuration of a pipeline names every module once, with its
place in the order, and every wire as often as it was asked for.
-/

namespace TensorToolchain.Pipeline

open List Wire TerminalInfo Terminal

variable {α β : Type} {w : Wire} {m a b : String} {c : Config} {q : Pipeline} {x : TerminalName} {i : TerminalInfo}

lemma perm_flatMap_filter [DecidableEq β] (key : α → β) {keys : List β} (hnd : keys.Nodup) (items : List α) :
    (keys.flatMap fun k => items.filter (key · = k)).Perm (items.filter (key · ∈ keys)) := by
  induction keys with
  | nil => simp
  | cons k keys ih =>
    obtain ⟨hnew, hnd⟩ := nodup_cons.1 hnd
    have hfst : (items.filter (key · ∈ k :: keys)).filter (key · = k) = items.filter fun a => key a = k := by
      rw [filter_filter]
      exact filter_congr fun a _ => by grind
    have hr : (items.filter (key · ∈ k :: keys)).filter (fun a => !decide (key a = k)) =
        items.filter fun a => key a ∈ keys := by
      rw [filter_filter]
      exact filter_congr fun a _ => by grind
    have hsp := filter_append_perm (fun a => decide (key a = k)) (items.filter (key · ∈ k :: keys))
    rw [hfst, hr] at hsp
    exact ((ih hnd).append_left _).trans hsp

lemma eq_flatMap_of_forall₂ {f : α → List β} {l : List α} {bs : List β}
    (h : List.Forall₂ (fun a b => f a = [b]) l bs) : bs = l.flatMap f := by
  induction h with
  | nil => rfl
  | cons hb _ ih => rw [flatMap_cons, hb, ← ih, singleton_append]

/-! ### How links are listed -/

/-- The name of the module that an owner is. -/
def Owner.moduleName : Owner → String
  | .pipeline => ""
  | .module m => m

/-- How a terminal is listed at a result that goes to it, where the modules have a given order. -/
def Terminal.reached (order : List String) (t : Terminal) : Dependency :=
  match t.owner with
  | .pipeline => .output t.key.number
  | .module m => .input (some (order.idxOf m)) t.key.label

/-- How a link that leaves a module is listed: the module, the number of the result, and where it
goes. -/
def Link.result (order : List String) (l : Link) : String × Int × Dependency :=
  (l.source.owner.moduleName, l.source.key.number, l.target.reached order)

/-- How a link that leaves an input of the pipeline is listed. -/
def Link.entry (order : List String) (l : Link) : GlobalEntry :=
  ⟨l.source.key.label, some (order.idxOf l.target.owner.moduleName), l.target.key.label⟩

/-- What a configuration lists at the results of modules. -/
def Config.results (c : Config) : List (String × Int × Dependency) :=
  c.modules.flatMap fun m => m.outputs.flatMap fun o => o.dependencies.map fun d => (m.name, o.index, d)

namespace Wire

/-- How a wire is listed that leaves a module, where the modules have a given order. -/
def result? (order : List String) : Wire → Option (String × Int × Dependency)
  | feed _ _ _ => none
  | join a r b x => some (a, r.key.number, .input (some (order.idxOf b)) x.key.label)
  | deliver a r o => some (a, r.key.number, .output o.key.number)

/-- How a wire is listed that leaves an input of the pipeline, where the modules have a given
order. -/
def inputRow? (order : List String) : Wire → Option GlobalEntry
  | feed i b x => some ⟨i.key.label, some (order.idxOf b), x.key.label⟩
  | join _ _ _ _ => none
  | deliver _ _ _ => none

/-- The input of the pipeline that a wire leaves. -/
def input? : Wire → Option TerminalName
  | feed i _ _ => some i
  | join _ _ _ _ => none
  | deliver _ _ _ => none

/-- The output of the pipeline that a wire enters. -/
def output? : Wire → Option TerminalName
  | feed _ _ _ => none
  | join _ _ _ _ => none
  | deliver _ _ o => some o

end Wire

lemma filterMap_eq_map_filter (kind : Link → Bool) (row : Link → β) {row? : Wire → Option β}
    (h : ∀ w, row? w = if kind w.link then some (row w.link) else none) (wires : List Wire) :
    wires.filterMap row? = ((wires.map link).filter kind).map row := by
  induction wires with
  | nil => rfl
  | cons w wires ih =>
    rw [filterMap_cons, h, ih, map_cons, filter_cons]
    cases kind w.link <;> rfl

/-! ### Entries -/

/-- A pipeline after wires, of which each input of the pipeline has one and those into outputs of
the pipeline name a number, with its modules in order. -/
structure Ordered (wires : List Wire) (order : List String) (p : Pipeline) : Prop where
  wired : Wired.By wires [] p
  numbered : Numbered p.stages order 0
  nodup : order.Nodup
  once : (wires.filterMap input?).Nodup
  decimal : ∀ o ∈ wires.filterMap output?, o.IsDecimal

section

variable {wires : List Wire} {waiting : List Link} {order : List String} {p : Pipeline}

lemma Wired.info_eq {links : List Link} {modules : Set String} {named : Set Terminal}
    (h : Wired links waiting modules named p) {t : Terminal} (hkn : t.kind ≠ .param) (ht : t ∈ named) :
    (p.info t).terminal = t ∧ (p.info t).label = t.key.label := by
  obtain ⟨i, hi⟩ := Option.isSome_iff_exists.1 (show (p.terminals.find? (·.terminal = t)).isSome by
    simpa using (h.mem_terminals t hkn).2 ht)
  have htr : i.terminal = t := by simpa using find?_some hi
  rw [info, hi]
  exact ⟨htr, htr ▸ (h.labelled i (mem_of_find?_eq_some hi)).1⟩

namespace Ordered

variable (h : Ordered wires order p)
include h

lemma target_info (hw : w ∈ wires) : (p.info w.target.terminal).terminal = w.target.terminal ∧
      (p.info w.target.terminal).label = w.target.terminal.key.label :=
  h.wired.info_eq (by cases w <;> simp [target, Port.terminal]) ⟨w, hw, .inr rfl⟩

lemma mem_order : m ∈ order ↔ ∃ w ∈ wires, m ∈ w.modules := by
  rw [← h.numbered.map_name]
  exact h.wired.mem_stages m

lemma ownerIndex?_eq (hw : w ∈ wires) (htgt : w.target = .moduleInput m x) :
    p.ownerIndex? w.target.terminal = some (order.idxOf m : Int) := by
  have hm : m ∈ order := h.mem_order.2 ⟨w, hw, by simp [modules, htgt, Port.modules]⟩
  obtain ⟨s, hs, hidx⟩ := h.numbered.find?_eq_some hm
  simp [ownerIndex?, htgt, Port.terminal, stage?, hs, hidx]

lemma dependency_eq (hw : w ∈ wires) :
    p.dependency (p.info w.target.terminal) = .ok (w.target.terminal.reached order) := by
  obtain ⟨htr, hlb⟩ := h.target_info hw
  rw [dependency, htr, hlb]
  cases w with
  | feed i b x =>
    rw [h.ownerIndex?_eq hw rfl]
    rfl
  | join a r b x =>
    rw [h.ownerIndex?_eq hw rfl]
    rfl
  | deliver a r o =>
    have ho : o.IsDecimal := h.decimal o (mem_filterMap.2 ⟨_, hw, rfl⟩)
    rw [target, Port.terminal, ho.readable.labelNumber_eq]
    rfl

end Ordered

def listedOutput (p : Pipeline) (order : List String) (i : TerminalInfo) : OutputEntry :=
  ⟨i.terminal.key.number, (p.bindingsOf i.terminal).map (reached order)⟩

def listedModule (p : Pipeline) (order : List String) (s : Stage) : ModuleEntry :=
  ⟨s.name, s.index, s.affinity, (p.terminalsOf (.module s.name) .output).map (p.listedOutput order)⟩

namespace Ordered

variable (h : Ordered wires order p)
include h

lemma outputEntry_eq (hi : i ∈ p.terminalsOf (.module m) .output) : p.outputEntry i = .ok (p.listedOutput order i) := by
  obtain ⟨hmem, how, hkn⟩ := mem_terminalsOf.1 hi
  obtain ⟨hlb, hrd⟩ := h.wired.labelled i hmem
  have hwr : ∀ l ∈ p.links.filter (·.source = i.terminal), ∃ w ∈ wires, w.link = l := fun l hl =>
    mem_map.1 (h.wired.links_eq ▸ mem_of_mem_filter hl)
  have hdp : (p.targetsOf i.terminal).mapM p.dependency = .ok ((p.bindingsOf i.terminal).map (reached order)) := by
    rw [mapM_eq_ok (g := (·.terminal.reached order))]
    · rw [targetsOf, bindingsOf, map_map, map_map]
      refine congrArg Except.ok (map_congr_left fun l hl => ?_)
      obtain ⟨w, hw, rfl⟩ := hwr l hl
      exact congrArg _ (h.target_info hw).1
    · intro t ht
      obtain ⟨l, hl, rfl⟩ := mem_map.1 ht
      obtain ⟨w, hw, rfl⟩ := hwr l hl
      rw [link, (h.target_info hw).1]
      exact h.dependency_eq hw
  rw [outputEntry, hdp, hlb, (hrd (by simp [how]) hkn).labelNumber_eq]
  rfl

lemma moduleEntry_eq (s : Stage) : p.moduleEntry s = .ok (p.listedModule order s) := by
  rw [moduleEntry, mapM_eq_ok fun i hi => h.outputEntry_eq hi]
  rfl

lemma filter_input?_eq_singleton (hw : w ∈ wires) {i : TerminalName} (hi : w.input? = some i) :
    (wires.filter (·.input? == some i)) = [w] := by
  have hmem : w ∈ wires.filter fun v => v.input? == some i := mem_filter.2 ⟨hw, by simp [hi]⟩
  have hlen : (wires.filter (·.input? == some i)).length ≤ 1 := by
    rw [← countP_eq_length_filter, ← count_filterMap]
    exact nodup_iff_count_le_one.1 h.once i
  obtain ⟨v, hv⟩ := length_eq_one_iff.1 (le_antisymm hlen (length_pos_of_mem hmem))
  rw [hv] at hmem ⊢
  rw [mem_singleton.1 hmem]

lemma links_from_input (hi : i ∈ p.terminalsOf .pipeline .input) :
    ∃ n b x, .feed n b x ∈ wires ∧ i.terminal = ⟨.pipeline, .input, n.key⟩ ∧
      (p.links.filter (·.source = i.terminal)) = [(feed n b x).link] := by
  obtain ⟨hmem, how, hkn⟩ := mem_terminalsOf.1 hi
  obtain ⟨w, hw, hend⟩ := (h.wired.mem_terminals i.terminal (by simp [hkn])).1 (mem_map_of_mem hmem)
  obtain ⟨n, b, x, rfl, hsrc⟩ : ∃ n b x, w = .feed n b x ∧ i.terminal = ⟨.pipeline, .input, n.key⟩ := by
    cases w <;> rcases hend with hend | hend <;> simp [hend, source, target, Port.terminal] at how hkn ⊢
  refine ⟨n, b, x, hw, hsrc, ?_⟩
  have hfl : ∀ v : Wire, decide (v.link.source = i.terminal) = (v.input? == some n) := by
    intro v
    rw [hsrc, Bool.eq_iff_iff]
    cases v <;> simp [link, source, Port.terminal, input?, TerminalName.key_injective.eq_iff]
  rw [h.wired.links_eq, filter_map]
  simp only [Function.comp_def, hfl, h.filter_input?_eq_singleton hw rfl, map_singleton]

lemma globalEntry_eq (hi : i ∈ p.terminalsOf .pipeline .input) : ∃ e, p.globalEntry i = .ok e ∧
      ((p.links.filter (·.source = i.terminal)).map (Link.entry order)) = [e] := by
  obtain ⟨n, b, x, hw, hsrc, hln⟩ := h.links_from_input hi
  obtain ⟨htr, hlb⟩ := h.target_info hw
  have htrg : p.targetsOf i.terminal = [p.info (feed n b x).target.terminal] := by
    rw [targetsOf, hln]
    rfl
  refine ⟨(feed n b x).link.entry order, ?_, by rw [hln, map_singleton]⟩
  rw [globalEntry, htrg]
  simp only [htr, hlb, h.ownerIndex?_eq hw rfl, (h.wired.labelled i (mem_terminalsOf.1 hi).1).1, hsrc]
  rfl

/-! ### The whole configuration -/

lemma params_eq_nil : p.terminalsOf .pipeline .param = [] := by
  refine eq_nil_iff_forall_not_mem.2 fun i hi => ?_
  obtain ⟨hmem, how, hkn⟩ := mem_terminalsOf.1 hi
  obtain ⟨m, -, hmd⟩ := h.wired.param_owner i hmem hkn
  rw [how] at hmd
  cases hmd

lemma exists_config : ∃ c, p.config = .ok c ∧ c.modules = p.stages.map (p.listedModule order) ∧
      c.inputs = ((p.terminalsOf .pipeline .input).flatMap fun i =>
        (p.links.filter (·.source = i.terminal)).map (Link.entry order)) ∧ c.params = [] := by
  obtain ⟨inputs, hins, hall⟩ := exists_mapM_eq_ok fun i hi => h.globalEntry_eq hi
  refine ⟨⟨p.stages.map _, inputs, []⟩, ?_, rfl, eq_flatMap_of_forall₂ hall, rfl⟩
  rw [config, mapM_eq_ok fun s _ => h.moduleEntry_eq s, hins, h.params_eq_nil]
  rfl

lemma nodup_terminalsOf (owner : Owner) (kind : TerminalKind) : ((p.terminalsOf owner kind).map terminal).Nodup :=
  h.wired.nodup.sublist (filter_sublist.map _)

lemma nodup_moduleOutputs : (p.moduleOutputs.map terminal).Nodup := by
  have hst : (p.stages.map Stage.name).Nodup := h.numbered.map_name ▸ h.nodup
  rw [moduleOutputs, map_flatMap]
  refine nodup_flatMap.2 ⟨fun s _ => h.nodup_terminalsOf _ _, ?_⟩
  refine (pairwise_map.1 hst).imp fun {s t} hne terminal hs ht => ?_
  obtain ⟨i, hi, rfl⟩ := mem_map.1 hs
  obtain ⟨j, hj, heq⟩ := mem_map.1 ht
  have how : Owner.module s.name = .module t.name := by
    rw [← (mem_terminalsOf.1 hi).2.1, ← (mem_terminalsOf.1 hj).2.1, heq]
  exact hne (Owner.module.inj how)

lemma exists_source (hw : w ∈ wires) : ∃ i ∈ p.terminals, i.terminal = w.link.source := by
  refine mem_map.1 ((h.wired.mem_terminals _ ?_).2 ⟨w, hw, .inl rfl⟩)
  cases w <;> simp [link, source, Port.terminal]

/-- The results that are listed are those that wires leave modules from. -/
lemma mem_moduleOutputs (hw : w ∈ wires) :
    w.link.source ∈ p.moduleOutputs.map terminal ↔ (!w.link.source.isGlobal) = true := by
  obtain ⟨i, hi, heq⟩ := h.exists_source hw
  constructor
  · intro hmem
    obtain ⟨j, hj, hsrc⟩ := mem_map.1 hmem
    obtain ⟨s, -, hj⟩ := mem_flatMap.1 hj
    simp [← hsrc, isGlobal, (mem_terminalsOf.1 hj).2.1]
  · intro hgl
    obtain ⟨m, r, hm⟩ : ∃ m r, w.source = .moduleOutput m r := by
      cases w with
      | feed => cases hgl
      | join a r b x => exact ⟨a, r, rfl⟩
      | deliver a r o => exact ⟨a, r, rfl⟩
    obtain ⟨s, hs, rfl⟩ := mem_map.1 ((h.wired.mem_stages m).2 ⟨w, hw, by simp [modules, hm, Port.modules]⟩)
    rw [link, hm] at heq ⊢
    refine mem_map.2 ⟨i, mem_flatMap.2 ⟨s, hs, mem_terminalsOf.2 ⟨hi, ?_, ?_⟩⟩, heq⟩
    · rw [heq]
      rfl
    · rw [heq]
      rfl

lemma mem_inputs (hw : w ∈ wires) :
    w.link.source ∈ (p.terminalsOf .pipeline .input).map terminal ↔ w.link.source.isGlobal := by
  obtain ⟨i, hi, heq⟩ := h.exists_source hw
  constructor
  · intro hmem
    obtain ⟨j, hj, hsrc⟩ := mem_map.1 hmem
    simp [← hsrc, isGlobal, (mem_terminalsOf.1 hj).2.1]
  · intro hgl
    have hkn : w.link.source.kind = .input := by
      cases w with
      | feed => rfl
      | join => cases hgl
      | deliver => cases hgl
    exact mem_map.2 ⟨i, mem_terminalsOf.2 ⟨hi, by simpa [heq, isGlobal] using hgl, heq ▸ hkn⟩, heq⟩

lemma perm_grouped {infos : List TerminalInfo} (hnd : (infos.map terminal).Nodup) {leaves : Link → Bool}
    (hmem : ∀ w ∈ wires, w.link.source ∈ infos.map terminal ↔ leaves w.link) (f : Link → β) :
    (infos.flatMap fun i => (p.links.filter (·.source = i.terminal)).map f).Perm
      (((wires.map link).filter leaves).map f) := by
  have hlv : (p.links.filter (·.source ∈ infos.map terminal)) = (wires.map link).filter leaves := by
    rw [h.wired.links_eq]
    refine filter_congr fun l hl => ?_
    obtain ⟨w, hw, rfl⟩ := mem_map.1 hl
    rw [Bool.eq_iff_iff, decide_eq_true_iff]
    exact hmem w hw
  have hgr := (perm_flatMap_filter Link.source hnd p.links).map f
  rw [hlv, map_flatMap, flatMap_map] at hgr
  exact hgr

end Ordered

lemma results_listedModules (p : Pipeline) (order : List String) :
    ((p.stages.map (p.listedModule order)).flatMap fun m => m.outputs.flatMap fun o =>
      o.dependencies.map fun d => (m.name, o.index, d)) =
    p.moduleOutputs.flatMap fun i => (p.links.filter (·.source = i.terminal)).map (Link.result order) := by
  rw [flatMap_map, moduleOutputs, flatMap_assoc]
  refine flatMap_congr fun s _ => ?_
  rw [listedModule, flatMap_map]
  refine flatMap_congr fun i hi => ?_
  rw [listedOutput, bindingsOf, map_map, map_map]
  refine map_congr_left fun l hl => ?_
  have hsrc : l.source = i.terminal := by simpa using (mem_filter.1 hl).2
  simp [Link.result, hsrc, (mem_terminalsOf.1 hi).2.1, Owner.moduleName]

/-- The configuration names each module once and lists each wire as often as it was asked for. -/
lemma Ordered.config_lists (h : Ordered wires order p) :
    ∃ c, p.config = .ok c ∧ c.modules.map (fun m => (m.name, m.index)) = order.zipIdx.map (fun e => (e.1, some e.2)) ∧
      c.results.Perm (wires.filterMap (result? order)) ∧
      c.inputs.Perm (wires.filterMap (inputRow? order)) ∧ c.params = [] := by
  obtain ⟨c, hc, hmd, hins, hpr⟩ := h.exists_config
  refine ⟨c, hc, ?_, ?_, ?_, hpr⟩
  · rw [hmd, map_map]
    exact h.numbered
  · rw [Config.results, hmd, results_listedModules,
      filterMap_eq_map_filter (fun l => !l.source.isGlobal) (Link.result order) fun w => by cases w <;> rfl]
    exact h.perm_grouped h.nodup_moduleOutputs (fun w hw => h.mem_moduleOutputs hw) _
  · rw [hins, filterMap_eq_map_filter (·.source.isGlobal) (Link.entry order) fun w => by cases w <;> rfl]
    exact h.perm_grouped (h.nodup_terminalsOf _ _) (fun w hw => h.mem_inputs hw) _

/-! ### After wires -/

/-- Putting the modules in order keeps all wires and lets none wait. -/
lemma Wired.By.reorder (h : Wired.By wires waiting p) {stages : List Stage}
    (hst : (stages.map Stage.name).Perm (p.stages.map Stage.name)) :
    Wired.By wires [] { p with stages, waiting := [] } where
  __ := h
  waiting_eq := rfl
  mem_stages m := hst.mem_iff.trans (h.mem_stages m)

lemma idxOf_lt_idxOf {earlier later : List String} (hnd : (earlier ++ b :: later).Nodup) (ha : a ∈ earlier) :
    (earlier ++ b :: later).idxOf a < (earlier ++ b :: later).idxOf b := by
  have hb : b ∉ earlier := ((nodup_append.1 hnd).2.2 b · b mem_cons_self rfl)
  rw [idxOf_append_of_mem ha, idxOf_append_of_notMem hb]
  exact lt_of_lt_of_le (idxOf_lt_length_iff.2 ha) (Nat.le_add_right _ _)

/-- A wire between modules goes forward in an order in which sources come first. -/
lemma Wired.By.idxOf_lt (h : Wired.By wires (fromModules (wires.map Wire.link)) p)
    (hhl : Holds p.links p.waiting [] p) (hfst : SourcesFirst p order) (hnd : order.Nodup) {r : TerminalName}
    (hb : b ∈ order) (hw : .join a r b x ∈ wires) : order.idxOf a < order.idxOf b := by
  have hwt : (join a r b x).link ∈ p.waiting := by
    rw [h.waiting_eq]
    exact mem_filter.2 ⟨mem_map_of_mem hw, rfl⟩
  obtain ⟨i, hi, htr⟩ := hhl.target_mem _ hwt (by simp [Wire.link, target, Port.terminal])
  obtain ⟨earlier, later, rfl⟩ := append_of_mem hb
  obtain ⟨n, hn, how⟩ := hfst earlier b later rfl i hi _ (mem_parentsOf.2 ⟨_, hwt, htr.symm, rfl⟩)
  obtain rfl := Owner.module.inj how
  exact idxOf_lt_idxOf hnd hn

def configStep : Json := .arr [.str "config"]

lemma sort_run (h : p.sorted? = some q) : sort.run.run p = (.ok (), q) := by
  rw [sort, step_get_bind_run]
  simp only [h]
  rfl

lemma act_configStep_run (specs : List (String × Json)) (hsr : p.sorted? = some q) (hcn : q.config = .ok c) :
    (act specs configStep).run.run p = (.ok c.report, q) := by
  change (sort >>= fun _ => get >>= fun q => (ofExcept q.config) >>= fun c =>
    pure c.report).run.run p = _
  rw [step_bind_run, sort_run hsr]
  change ((ofExcept q.config : Step Config) >>= (pure ·.report)).run.run q = _
  rw [hcn]
  rfl

/-- Where asking for the configuration leaves the pipeline as it is, it is answered alike however
often it is asked for. -/
lemma answers_replicate_configStep (specs : List (String × Json)) (hsr : p.sorted? = some q)
    (hag : q.sorted? = some q) (hcn : q.config = .ok c) (n : Nat) :
    answers specs p (List.replicate n configStep) = List.replicate n (.ok c.report) := by
  induction n generalizing p with
  | zero => rfl
  | succ n ih =>
    have hrun := act_configStep_run specs hsr hcn
    rw [replicate_succ, replicate_succ, answers, answer, after, hrun, ih hag]

end

/-- After wires that were all made, of which each input of the pipeline has one and those that enter
an output of it name a number, the modules that they name come into an order in which each wire
between modules goes forward. The configuration lists each module once, with its place, and each
wire as often as it was asked for, and it stays the same however often it is asked for. -/
theorem config_lists_wires (specs : List (String × Json)) (wires : List Wire)
    (hok : ∀ r ∈ answers specs {} (wires.map step), ∃ a, r = .ok a)
    (honce : (wires.filterMap input?).Nodup) (hdecimal : ∀ o ∈ wires.filterMap output?, o.IsDecimal) :
    let p := (wires.map step).foldl (after specs) {}
    ∃ (order : List String) (q : Pipeline) (c : Config),
      order.Nodup ∧ (∀ m, m ∈ order ↔ ∃ w ∈ wires, m ∈ w.modules) ∧
      sort.run.run p = (.ok (), q) ∧
      q.stages.map (fun s => (s.name, s.index)) = order.zipIdx.map (fun e => (e.1, some e.2)) ∧
      (∀ a r b x, .join a r b x ∈ wires → order.idxOf a < order.idxOf b) ∧
      q.config = .ok c ∧
      c.modules.map (fun m => (m.name, m.index)) = order.zipIdx.map (fun e => (e.1, some e.2)) ∧
      c.results.Perm (wires.filterMap (result? order)) ∧
      c.inputs.Perm (wires.filterMap (inputRow? order)) ∧ c.params = [] ∧
      ∀ n, answers specs p (List.replicate n configStep) = List.replicate n (.ok c.report) := by
  intro p
  have hwired : Wired.By wires (fromModules (wires.map link)) p := wired_after_wires specs wires hok
  have hholds : Holds p.links p.waiting [] p := by
    refine (Tracks.start.run specs (wires.map step) fun hmem => ?_).holds
    obtain ⟨a, ha⟩ := hok _ hmem
    cases ha
  obtain ⟨order, hsorted, hperm, hfirst⟩ := exists_order hholds.accounted hholds.acyclic hholds.source_mem hholds.nodup
  have hnodup : order.Nodup := hperm.nodup_iff.2 hholds.nodup
  have hnumbered : Numbered (p.numbered order) order 0 := numbered_numbered fun n hn => hperm.mem_iff.1 hn
  have hafter : Wired.By wires [] { p with stages := p.numbered order, waiting := [] } :=
    hwired.reorder (by rw [hnumbered.map_name]; exact hperm)
  have hordered : Ordered wires order _ := ⟨hafter, hnumbered, hnodup, honce, hdecimal⟩
  obtain ⟨c, hconfig, hmodules, hresults, hinputs, hparams⟩ := hordered.config_lists
  have hmem : ∀ m, m ∈ order ↔ ∃ w ∈ wires, m ∈ w.modules := fun m => hordered.mem_order
  refine ⟨order, _, c, hnodup, hmem, sort_run hsorted, hnumbered, fun a r b x hw => ?_, hconfig, hmodules, hresults,
    hinputs, hparams, answers_replicate_configStep specs hsorted (sorted?_of_numbered rfl hnodup hnumbered) hconfig⟩
  exact hwired.idxOf_lt hholds hfirst hnodup ((hmem b).2 ⟨_, hw, by simp [Wire.modules, Wire.target, Port.modules]⟩) hw

/-- Two relays, of which the one that is named first comes second: it is fed twice by the other. -/
def crossedWires : List Wire :=
  [.feed (.text "i") "a" (.text "x"), .join "b" (.whole 0) "a" (.text "x"), .join "b" (.text "0") "a" (.text "x"),
    .deliver "a" (.whole 0) (.text "7")]

/-- The relay that feeds the other comes first, and both wires between them are listed. -/
theorem crossedWires_config_lists :
    answers relays {} (crossedWires.map step) = List.replicate 4 (.ok (.text "ok")) ∧
    ∃ (order : List String) (q : Pipeline) (c : Config),
      order.Nodup ∧ sort.run.run ((crossedWires.map step).foldl (after relays) {}) = (.ok (), q) ∧
      order.idxOf "b" < order.idxOf "a" ∧ q.config = .ok c ∧
      c.results.Perm [("b", 0, .input (some (order.idxOf "a")) "x"), ("b", 0, .input (some (order.idxOf "a")) "x"),
        ("a", 0, .output 7)] ∧
      c.inputs.Perm [⟨"i", some (order.idxOf "a"), "x"⟩] := by
  have hanswers : answers relays {} (crossedWires.map step) = List.replicate 4 (.ok (.text "ok")) := by cbv
  obtain ⟨order, q, c, hnodup, -, hsort, -, hforward, hconfig, -, hresults, hinputs, -, -⟩ :=
    config_lists_wires relays crossedWires (fun r hr => ⟨.text "ok", (List.mem_replicate.1 (hanswers ▸ hr)).2⟩)
      (by decide) (by simp [crossedWires, output?, TerminalName.IsDecimal])
  have hnumbers : (TerminalName.whole 0).key.number = 0 ∧ (TerminalName.text "0").key.number = 0 ∧
      (TerminalName.text "7").key.number = 7 := by decide +kernel
  simp only [crossedWires, List.filterMap_cons, result?, hnumbers] at hresults
  exact ⟨hanswers, order, q, c, hnodup, hsort, hforward "b" (.whole 0) "a" (.text "x") (by simp [crossedWires]),
    hconfig, hresults, hinputs⟩

end TensorToolchain.Pipeline
