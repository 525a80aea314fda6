import TensorToolchain.Proofs.Pipeline.Cycles
import TensorToolchain.Proofs.Text.Reading

/-!
# Refused links and wires

A link that is refused for the roles of its terminals changes nothing; one that is refused later
stays. A wire is a link as a step asks for it. After steps that were all answered the pipeline holds
exactly the links of the wires, in order, and knows exactly the modules and terminals that they
name, each under its own label.
-/

namespace TensorToolchain.Pipeline

open List TerminalInfo

/-! ### What a refused link leaves behind

Linking two terminals checks their roles first, then makes the link, and only then checks the types
that they carry and whether the link closes a cycle.
-/

section

variable {p q : Pipeline} {source target : TerminalInfo} {l : Link}

def bindingsOf (p : Pipeline) (terminal : Terminal) : List Terminal :=
  (p.links.filter (·.source = terminal)).map Link.target

/-- Two pipelines in which every terminal is bound to the same terminals and awaits the same
sources. -/
structure SameWiring (p q : Pipeline) : Prop where
  bindings : ∀ terminal, q.bindingsOf terminal = p.bindingsOf terminal
  parents : ∀ terminal, q.parentsOf terminal = p.parentsOf terminal

lemma bindingsOf_of_links_eq (h : q.links = p.links ++ [l]) (terminal : Terminal) :
    q.bindingsOf terminal = p.bindingsOf terminal ++ if terminal = l.source then [l.target] else [] := by
  rw [bindingsOf, bindingsOf, h, filter_append]
  by_cases hsrc : terminal = l.source
  · simp [hsrc]
  · simp [hsrc, Ne.symm hsrc]

lemma parentsOf_of_waiting_eq (h : q.waiting = p.waiting ++ [l]) (terminal : Terminal) :
    q.parentsOf terminal = p.parentsOf terminal ++ if terminal = l.target then [l.source] else [] := by
  rw [parentsOf, parentsOf, h, filter_append]
  by_cases htgt : terminal = l.target
  · simp [htgt]
  · simp [htgt, Ne.symm htgt]

lemma not_sameWiring_of_links_eq (h : q.links = p.links ++ [l]) : ¬ SameWiring p q := by
  intro hsm
  have hsrc := bindingsOf_of_links_eq h l.source
  rw [hsm.bindings, if_pos rfl] at hsrc
  exact cons_ne_nil _ _ (self_eq_append_right.1 hsrc)

/-- A refused link leaves every terminal as it was exactly if it is refused for the roles of its
terminals. With right roles the target stays among the bindings of the source, and the source among
the parents of the target unless the types differ; nothing else changes. -/
theorem wiring_kept_iff_roles_refused (p : Pipeline) (source target : TerminalInfo) (e : Fault)
    (h : ((connect source target).run.run p).1 = .error e) :
    let q := ((connect source target).run.run p).2
    (SameWiring p q ↔ checkRoles source.terminal target.terminal = .error e) ∧
    (checkRoles source.terminal target.terminal = .ok () → ∀ terminal,
      q.bindingsOf terminal = p.bindingsOf terminal ++ (if terminal = source.terminal then [target.terminal] else []) ∧
      q.parentsOf terminal = p.parentsOf terminal ++
        if terminal = target.terminal ∧ typesDiffer source target = false then [source.terminal] else []) ∧
    q.stages = p.stages ∧ q.terminals = p.terminals := by
  intro q
  rcases connect_cases p source target with
    ⟨e', hroles, hrun⟩ | ⟨hroles, ⟨-, hrun⟩ | ⟨-, htypes, hrun⟩ | ⟨-, htypes, hrun⟩⟩
  · have hq : q = p := congrArg Prod.snd hrun
    obtain rfl : e' = e := by simpa [hrun] using h
    rw [hq, hroles]
    exact ⟨iff_of_true ⟨fun _ => rfl, fun _ => rfl⟩ rfl, nofun, rfl, rfl⟩
  · rw [hrun] at h
    cases h
  · have hq : q = p.linked (linkOf source target) := congrArg Prod.snd hrun
    rw [hq, hroles, htypes]
    refine ⟨iff_of_false (not_sameWiring_of_links_eq rfl) nofun, fun _ terminal => ?_, rfl, rfl⟩
    exact ⟨bindingsOf_of_links_eq (l := linkOf source target) rfl terminal, by simp [parentsOf, linked]⟩
  · have hq : q = p.awaiting (linkOf source target) := congrArg Prod.snd hrun
    rw [hq, hroles, htypes]
    refine ⟨iff_of_false (not_sameWiring_of_links_eq rfl) nofun, fun _ terminal => ?_, rfl, rfl⟩
    refine ⟨bindingsOf_of_links_eq (l := linkOf source target) rfl terminal, ?_⟩
    rw [parentsOf_of_waiting_eq (l := linkOf source target) rfl terminal]
    by_cases htarget : terminal = target.terminal <;> simp [linkOf, htarget]

/-- In a row of three relays a link from the input of a relay is refused, and every terminal stays
as it was. -/
theorem relayRow_input_link_refused :
    ((connect (relayInput "b") (relayInput "c")).run.run (relayRow.foldl (after relays) {})).1 =
      .error (.worded .runtime "Module can only bind from output interface!") ∧
    SameWiring (relayRow.foldl (after relays) {})
      ((connect (relayInput "b") (relayInput "c")).run.run (relayRow.foldl (after relays) {})).2 := by
  have hrefused : ((connect (relayInput "b") (relayInput "c")).run.run (relayRow.foldl (after relays) {})).1 =
      .error (.worded .runtime "Module can only bind from output interface!") := rfl
  exact ⟨hrefused, (wiring_kept_iff_roles_refused _ _ _ _ hrefused).1.2 rfl⟩

/-- A relay, and a module whose input is of another type than the result of the relay. -/
def unlikeModules : List (String × Json) :=
  [("a", .obj [("inputs", .arr []), ("outputs", .str "t")]),
    ("b", .obj [("inputs", .arr [.arr [.str "x", .str "u"]]), ("outputs", .str "t")])]

def unlikeInput : TerminalInfo := { relayInput "b" with type := some "u" }

/-- The two modules with the terminals of a link between them. -/
def unlikePair : Pipeline :=
  [.arr [.str "get", nameOutput "a"], .arr [.str "get", nameInput "b"]].foldl (after unlikeModules) {}

/-- A link that is refused because the types differ stays among the bindings of its source; one that
is refused for a cycle stays among the parents of its target, too. -/
theorem refused_links_stay :
    relayOutput "a" ∈ unlikePair.terminals ∧ unlikeInput ∈ unlikePair.terminals ∧
    refusal? ((connect (relayOutput "a") unlikeInput).run.run unlikePair).1 =
      some (typeFault (relayOutput "a") unlikeInput) ∧
    unlikePair.bindingsOf (relayOutput "a").terminal = [] ∧
    ((connect (relayOutput "a") unlikeInput).run.run unlikePair).2.bindingsOf (relayOutput "a").terminal =
      [unlikeInput.terminal] ∧
    refusal? ((connect (relayOutput "c") (relayInput "a")).run.run (relayRow.foldl (after relays) {})).1 =
      some cycleFault ∧
    parentsOf (relayRow.foldl (after relays) {}) (relayInput "a").terminal = [] ∧
    parentsOf ((connect (relayOutput "c") (relayInput "a")).run.run (relayRow.foldl (after relays) {})).2
      (relayInput "a").terminal = [(relayOutput "c").terminal] := by
  decide +kernel

end

/-! ### Names -/

/-- What a terminal is called: a text or an integer. -/
inductive TerminalName where
  | text (s : String)
  | whole (n : Int)
  deriving DecidableEq

variable {n : TerminalName}

def Key.label : Key → String
  | .text s => s
  | .whole n => toString n
  | .fraction _ => ""
  | .nothing => ""

/-- The number that a key spells, or zero. -/
def Key.number (k : Key) : Int := (Text.readInt? k.label.toList).getD 0

namespace TerminalName

def json : TerminalName → Json
  | text s => .str s
  | whole n => .int n

def key : TerminalName → Key
  | text s => .text s
  | whole n => .whole n

/-- A name that is an integer, or a text of plain digits. -/
def IsDecimal : TerminalName → Prop
  | text s => s ≠ "" ∧ ∀ c ∈ s.toList, c.isDigit = true
  | whole _ => True

lemma ofJson?_json (n : TerminalName) : Key.ofJson? n.json = some n.key := by cases n <;> rfl

lemma key_injective : Function.Injective key := by
  intro a b h
  cases a <;> cases b <;> cases h <;> rfl

lemma display_json (n : TerminalName) : (Value.ofJson n.json).display = n.key.label := by cases n <;> rfl

end TerminalName

/-- A key whose label spells a number. -/
def Key.Readable (k : Key) : Prop := ∃ n, Text.readInt? k.label.toList = some n

lemma Key.Readable.labelNumber_eq {k : Key} (h : k.Readable) : labelNumber k.label = .ok k.number := by
  obtain ⟨n, hn⟩ := h
  rw [labelNumber, number, hn]
  rfl

lemma Key.readable_whole (n : Int) : (Key.whole n).Readable := ⟨n, Text.readInt?_toString n⟩

lemma TerminalName.IsDecimal.readable (h : n.IsDecimal) : n.key.Readable := by
  cases n with
  | whole n => exact Key.readable_whole n
  | text s =>
    have hne : s.toList ≠ [] := fun hnil => h.1 (String.toList_inj.1 (hnil.trans String.toList_empty.symm))
    exact ⟨_, Text.readInt?_digits h.2 hne⟩

/-- A name at a position of the results of a module spells that position. -/
lemma TerminalName.readable_of_position {i : Int} (h : n.key.position = .ok i) : n.key.Readable := by
  cases n with
  | whole n => exact Key.readable_whole n
  | text s => exact ⟨i, orFail_eq_ok.1 h⟩

/-! ### Wires -/

/-- A terminal as a step names it. -/
inductive Port where
  | input (name : TerminalName)
  | output (name : TerminalName)
  | moduleInput (module : String) (name : TerminalName)
  | moduleOutput (module : String) (name : TerminalName)

def Port.terminal : Port → Terminal
  | input n => ⟨.pipeline, .input, n.key⟩
  | output n => ⟨.pipeline, .output, n.key⟩
  | moduleInput m n => ⟨.module m, .input, n.key⟩
  | moduleOutput m n => ⟨.module m, .output, n.key⟩

def Port.json : Port → Json
  | input n => .arr [.str "input", n.json]
  | output n => .arr [.str "output", n.json]
  | moduleInput m n => .arr [.str "mod", .str m, .str "input", n.json]
  | moduleOutput m n => .arr [.str "mod", .str m, .str "output", n.json]

/-- The module of a port, if it belongs to one. -/
def Port.modules : Port → List String
  | input _ | output _ => []
  | moduleInput m _ | moduleOutput m _ => [m]

/-- A link as a step asks for it. -/
inductive Wire where
  | feed (input : TerminalName) (target : String) (entry : TerminalName)
  | join (source : String) (result : TerminalName) (target : String) (entry : TerminalName)
  | deliver (source : String) (result output : TerminalName)

namespace Wire

def source : Wire → Port
  | feed i _ _ => .input i
  | join a r _ _ => .moduleOutput a r
  | deliver a r _ => .moduleOutput a r

def target : Wire → Port
  | feed _ b x => .moduleInput b x
  | join _ _ b x => .moduleInput b x
  | deliver _ _ o => .output o

def modules (w : Wire) : List String := w.source.modules ++ w.target.modules

def link (w : Wire) : Link := ⟨w.source.terminal, w.target.terminal⟩

def step (w : Wire) : Json := .arr [.str "connect", w.source.json, w.target.json]

end Wire

/-! ### What the pipeline knows -/

/-- A terminal under its own label; the label of a result of a module spells a number. -/
def Labelled (i : TerminalInfo) : Prop :=
  i.label = i.terminal.key.label ∧ (i.terminal.owner ≠ .pipeline → i.terminal.kind = .output → i.terminal.key.Readable)

/-- A pipeline that holds given links, of which given ones wait, and knows given modules and
terminals, apart from those for parameters, which belong to modules. -/
structure Wired (links waiting : List Link) (modules : Set String) (named : Set Terminal) (p : Pipeline) : Prop where
  links_eq : p.links = links
  waiting_eq : p.waiting = waiting
  nodup : (p.terminals.map terminal).Nodup
  labelled : ∀ i ∈ p.terminals, Labelled i
  mem_stages : ∀ m, m ∈ p.stages.map Stage.name ↔ m ∈ modules
  mem_terminals : ∀ t, t.kind ≠ .param → (t ∈ p.terminals.map terminal ↔ t ∈ named)
  param_owner : ∀ i ∈ p.terminals, i.terminal.kind = .param → ∃ m ∈ modules, i.terminal.owner = .module m

variable {links waiting : List Link} {modules : Set String} {named : Set Terminal} {p : Pipeline}
variable (specs : List (String × Json))

lemma wired_empty : Wired [] [] ∅ ∅ {} where
  links_eq := rfl
  waiting_eq := rfl
  nodup := nodup_nil
  labelled := by simp
  mem_stages := by simp
  mem_terminals := by simp
  param_owner := by simp

/-- A module that is new comes with the terminal for its parameters, which no one else has. -/
lemma yields_addStage (name : String) (spec : ModuleSpec) :
    Yields (addStage name spec) (Wired links waiting modules named)
      fun _ => Wired links waiting (insert name modules) named := by
  refine .read fun p h => ?_
  cases hfn : p.stage? name with
  | some s =>
    refine Yields.ret _ fun q hq => ?_
    subst hq
    have hnm : s.name = name := by simpa using find?_some hfn
    have hmem : name ∈ modules := (h.mem_stages name).1 (hnm ▸ mem_map_of_mem (mem_of_find?_eq_some hfn))
    rw [Set.insert_eq_of_mem hmem]
    exact h
  | none =>
    refine .write fun q hq _ _ => ?_
    have hnew : name ∉ p.stages.map Stage.name := by simpa [stage?] using hfn
    have hpr : (⟨.module name, .param, paramKey⟩ : Terminal) ∉ p.terminals.map terminal := by
      rintro hmem
      obtain ⟨i, hi, htr⟩ := mem_map.1 hmem
      obtain ⟨m, hm, how⟩ := h.param_owner i hi (by rw [htr])
      rw [htr] at how
      obtain rfl := Owner.module.inj how
      exact hnew ((h.mem_stages name).2 hm)
    exact
      { h with
        nodup := by
          rw [map_append]
          exact nodup_snoc h.nodup hpr
        labelled := fun i hi => (mem_append.1 hi).elim (h.labelled i) fun hi => by
          rw [mem_singleton.1 hi]
          exact ⟨rfl, by simp⟩
        mem_stages := fun m => by
          rw [map_append, mem_append, h.mem_stages, or_comm]
          simp
        mem_terminals := fun t ht => by
          rw [map_append, mem_append, h.mem_terminals t ht, or_iff_left]
          simp only [map_singleton, mem_singleton]
          rintro rfl
          exact ht rfl
        param_owner := fun i hi hkn => by
          rcases mem_append.1 hi with hi | hi
          · obtain ⟨m, hm, how⟩ := h.param_owner i hi hkn
            exact ⟨m, Set.mem_insert_of_mem name hm, how⟩
          · rw [mem_singleton.1 hi]
            exact ⟨name, Set.mem_insert name modules, rfl⟩ }

lemma readable_of_type? {spec : ModuleSpec} {kind : TerminalKind} {name : TerminalName} {type : Option String}
    (h : spec.type? kind name.key = .ok type) (hkn : kind = .output) : name.key.Readable := by
  subst hkn
  obtain ⟨i, hi, -⟩ := bind_eq_ok.1 h
  exact TerminalName.readable_of_position hi

lemma Wired.add (h : Wired links waiting modules named p) {i : TerminalInfo} (hi : Labelled i)
    (hkn : i.terminal.kind ≠ .param) (hnew : i.terminal ∉ p.terminals.map terminal) :
    Wired links waiting modules (insert i.terminal named) { p with terminals := p.terminals ++ [i] } where
  __ := h
  nodup := by
    rw [map_append]
    exact nodup_snoc h.nodup hnew
  labelled j hj := (mem_append.1 hj).elim (h.labelled j) (mem_singleton.1 · ▸ hi)
  mem_terminals t ht := by
    rw [map_append, mem_append, h.mem_terminals t ht, or_comm]
    simp
  param_owner j hj hpr := (mem_append.1 hj).elim (h.param_owner j · hpr) fun hj =>
    absurd (mem_singleton.1 hj ▸ hpr) hkn

lemma yields_nameTerminal (owner : Owner) (kind : TerminalKind) (name : TerminalName) (hkn : kind ≠ .param) :
    Yields (nameTerminal owner kind name.json) (Wired links waiting modules named)
      fun i p => i.terminal = ⟨owner, kind, name.key⟩ ∧
        Wired links waiting modules (insert ⟨owner, kind, name.key⟩ named) p := by
  rw [nameTerminal, name.ofJson?_json]
  refine .lift_bind (fun key hkey => ?_) fun e he => by cases he
  obtain rfl := Except.ok.inj hkey
  refine .read fun p h => ?_
  split
  · rename_i i hfn
    refine Yields.ret i fun q hq => ?_
    subst hq
    have htr : i.terminal = ⟨owner, kind, name.key⟩ := by simpa using find?_some hfn
    refine ⟨htr, ?_⟩
    rw [Set.insert_eq_of_mem ((h.mem_terminals _ hkn).1 (htr ▸ mem_map_of_mem (mem_of_find?_eq_some hfn)))]
    exact h
  · rename_i hfn
    have hnew : (⟨owner, kind, name.key⟩ : Terminal) ∉ p.terminals.map terminal := by simpa using hfn
    rw [name.display_json]
    extract_lets label join
    have hjn : ∀ type, (owner ≠ .pipeline → kind = .output → name.key.Readable) → Yields (join type) (· = p)
        fun i p => i.terminal = ⟨owner, kind, name.key⟩ ∧
          Wired links waiting modules (insert ⟨owner, kind, name.key⟩ named) p := by
      intro type hrd q hq i hi
      obtain rfl := Except.ok.inj hi
      exact ⟨rfl, h.add (i := ⟨⟨owner, kind, name.key⟩, label, type⟩) ⟨rfl, hrd⟩ hkn hnew⟩
    split
    · exact hjn none (by simp)
    · refine .lift_bind (fun type hty => ?_) fun e _ q _ i hi => by cases hi
      split
      · exact hjn _ fun _ => readable_of_type? hty
      · exact fun q _ i hi => by cases hi

lemma yields_findModule (m : String) (kind : TerminalKind) (name : TerminalName) (hkn : kind ≠ .param) :
    Yields (nameStage specs m >>= fun _ => nameTerminal (.module m) kind name.json) (Wired links waiting modules named)
      fun i p => i.terminal = ⟨.module m, kind, name.key⟩ ∧
        Wired links waiting (insert m modules) (insert ⟨.module m, kind, name.key⟩ named) p := by
  have hst : Yields (nameStage specs m) (Wired links waiting modules named)
      fun _ => Wired links waiting (insert m modules) named := by
    rw [nameStage]
    split
    · exact yields_addStage m _
    · exact .refuse _ fun p _ _ h => by cases h
  exact hst.bind fun _ => yields_nameTerminal _ kind name hkn

lemma yields_findTerminal (port : Port) : Yields (findTerminal specs port.json) (Wired links waiting modules named)
      fun i p => i.terminal = port.terminal ∧
        Wired links waiting ({m | m ∈ port.modules} ∪ modules) (insert port.terminal named) p := by
  have hgl : ({m | m ∈ ([] : List String)} ∪ modules : Set String) = modules := by simp
  have hmd : ∀ m, ({n | n ∈ [m]} ∪ modules : Set String) = insert m modules := by simp
  cases port with
  | input name =>
    rw [Port.modules, hgl]
    exact yields_nameTerminal .pipeline .input name (by simp)
  | output name =>
    rw [Port.modules, hgl]
    exact yields_nameTerminal .pipeline .output name (by simp)
  | moduleInput m name =>
    rw [Port.modules, hmd]
    exact yields_findModule specs m .input name (by simp)
  | moduleOutput m name =>
    rw [Port.modules, hmd]
    exact yields_findModule specs m .output name (by simp)

/-! ### Steps and runs -/

lemma Wired.link {q : Pipeline} (h : Wired links waiting modules named p) {l : Link} (hln : q.links = p.links ++ [l])
    (hwt : q.waiting = p.waiting ++ if l.source.isGlobal then [] else [l]) (hst : q.stages = p.stages)
    (htr : q.terminals = p.terminals) :
    Wired (links ++ [l]) (waiting ++ if l.source.isGlobal then [] else [l]) modules named q where
  links_eq := by rw [hln, h.links_eq]
  waiting_eq := by rw [hwt, h.waiting_eq]
  nodup := htr ▸ h.nodup
  labelled := htr ▸ h.labelled
  mem_stages := hst ▸ h.mem_stages
  mem_terminals := htr ▸ h.mem_terminals
  param_owner := htr ▸ h.param_owner

/-- A link that is made waits unless it leaves the pipeline itself. -/
lemma yields_connect (source target : TerminalInfo) : Yields (connect source target) (Wired links waiting modules named)
      fun _ => Wired (links ++ [linkOf source target])
        (waiting ++ if source.terminal.isGlobal then [] else [linkOf source target]) modules named := by
  intro p h _ hok
  rcases connect_cases p source target with
    ⟨e, -, hrun⟩ | ⟨-, ⟨hgl, hrun⟩ | ⟨-, -, hrun⟩ | ⟨hgl, -, hrun⟩⟩
  · rw [hrun] at hok
    cases hok
  · rw [hrun]
    exact h.link rfl (by simp [linkOf, hgl, linked]) rfl rfl
  · rw [hrun] at hok
    cases hok
  · rw [hrun]
    exact h.link rfl (by simp [linkOf, hgl, awaiting]) rfl rfl

/-- The links that wait, if none was released: those that leave modules. -/
def fromModules (links : List Link) : List Link := links.filter fun l => !l.source.isGlobal

/-- A pipeline after wires were asked for, all of which it made. -/
def Wired.By (wires : List Wire) (waiting : List Link) (p : Pipeline) : Prop :=
  Wired (wires.map Wire.link) waiting {m | ∃ w ∈ wires, m ∈ w.modules}
    {t | ∃ w ∈ wires, t = w.source.terminal ∨ t = w.target.terminal} p

lemma Wired.by_append {wires : List Wire} {w : Wire} {source target : TerminalInfo}
    (hsrc : source.terminal = w.source.terminal) (htgt : target.terminal = w.target.terminal)
    (h : Wired (wires.map Wire.link ++ [linkOf source target])
      (fromModules (wires.map Wire.link) ++ if source.terminal.isGlobal then [] else [linkOf source target])
      ({m | m ∈ w.target.modules} ∪ ({m | m ∈ w.source.modules} ∪ {m | ∃ w ∈ wires, m ∈ w.modules}))
      (insert w.target.terminal (insert w.source.terminal
        {t | ∃ w ∈ wires, t = w.source.terminal ∨ t = w.target.terminal})) p) :
    Wired.By (wires ++ [w]) (fromModules ((wires ++ [w]).map Wire.link)) p := by
  have hln : linkOf source target = w.link := by rw [linkOf, hsrc, htgt, Wire.link]
  have hwt : fromModules ((wires ++ [w]).map Wire.link) = fromModules (wires.map Wire.link) ++
      if source.terminal.isGlobal then [] else [linkOf source target] := by
    rw [fromModules, map_append, hln, hsrc, fromModules]
    cases hgl : w.source.terminal.isGlobal <;> simp [Wire.link, hgl]
  have hmd : {m | ∃ v ∈ wires ++ [w], m ∈ v.modules} =
      {m | m ∈ w.target.modules} ∪ ({m | m ∈ w.source.modules} ∪ {m | ∃ w ∈ wires, m ∈ w.modules}) := by
    ext m
    simp only [mem_append, mem_singleton, Wire.modules, Set.mem_ofPred_eq, Set.mem_union, or_and_right,
      exists_or, exists_eq_left]
    grind
  have hnm : {t | ∃ v ∈ wires ++ [w], t = v.source.terminal ∨ t = v.target.terminal} =
      insert w.target.terminal (insert w.source.terminal
        {t | ∃ w ∈ wires, t = w.source.terminal ∨ t = w.target.terminal}) := by
    ext t
    grind
  rw [By, hmd, hnm, hwt, map_append, map_singleton, ← hln]
  exact h

lemma yields_act (wires : List Wire) (w : Wire) :
    Yields (act specs w.step) (Wired.By wires (fromModules (wires.map Wire.link)))
      fun _ => Wired.By (wires ++ [w]) (fromModules ((wires ++ [w]).map Wire.link)) := by
  refine .bind (yields_findTerminal specs w.source) fun source => .given fun hsrc => ?_
  refine .bind (yields_findTerminal specs w.target) fun target => .given fun htgt => ?_
  exact .bind (yields_connect source target) fun _ => .ret _ fun p h => h.by_append hsrc htgt

lemma wired_by_empty : Wired.By [] [] {} := by simpa [Wired.By] using wired_empty

lemma wired_after_wires (wires : List Wire) (hok : ∀ r ∈ answers specs {} (wires.map Wire.step), ∃ a, r = .ok a) :
    Wired.By wires (fromModules (wires.map Wire.link)) ((wires.map Wire.step).foldl (after specs) {}) := by
  suffices hrun : ∀ seen p, Wired.By seen (fromModules (seen.map Wire.link)) p →
      (∀ r ∈ answers specs p (wires.map Wire.step), ∃ a, r = .ok a) →
      Wired.By (seen ++ wires) (fromModules ((seen ++ wires).map Wire.link))
        ((wires.map Wire.step).foldl (after specs) p) from hrun [] {} wired_by_empty hok
  clear hok
  induction wires with
  | nil =>
    intro seen p h _
    rw [append_nil]
    exact h
  | cons w rest ih =>
    intro seen p h hok
    obtain ⟨a, ha⟩ := hok _ mem_cons_self
    rw [append_cons]
    exact ih _ _ (yields_act specs seen w p h a ha) fun r hr => hok r (mem_cons_of_mem _ hr)

end TensorToolchain.Pipeline
