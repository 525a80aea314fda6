import TensorToolchain.Proofs.Faults
import TensorToolchain.Proofs.Pipeline.Ordering

/-!
# Terminals and cycles

Naming terminals takes modules and terminals into a pipeline and leaves its links alone. What is
said of a pipeline here is kept by it, and every terminal that is named is known afterwards.
-/

namespace TensorToolchain.Pipeline

open List Stage Meets

/-- What is known of a terminal of a module: the module is part of the pipeline, exactly the
terminal for its parameters is without a type, and the pipeline knows the terminal if it is an
input. -/
def Known (p : Pipeline) (i : TerminalInfo) : Prop :=
  ∀ m, i.terminal.owner = .module m → m ∈ p.stages.map name ∧
    (i.type = none ↔ i.terminal.kind = .param) ∧
    (i.terminal.kind = .input → ∃ j ∈ p.terminals, j.terminal = i.terminal)

/-- A pipeline with given links, of which given ones wait, and terminals of it in hand. -/
structure Holds (links waiting : List Link) (held : List TerminalInfo) (p : Pipeline) : Prop where
  links_eq : p.links = links
  waiting_eq : p.waiting = waiting
  nodup : (p.stages.map name).Nodup
  known : ∀ i ∈ held ++ p.terminals, Known p i
  accounted : ∀ l, waiting.count l ≤ links.count l
  acyclic : Acyclic waiting
  source_mem : ∀ l ∈ waiting, ∃ n ∈ p.stages.map name, l.source.owner = .module n
  target_mem : ∀ l ∈ waiting, l.target.owner ≠ .pipeline →
    ∃ i ∈ p.terminalsOf l.target.owner .input, i.terminal = l.target

variable {links waiting : List Link} {held : List TerminalInfo} {p : Pipeline}

lemma holds_empty : Holds [] [] [] {} where
  links_eq := rfl
  waiting_eq := rfl
  nodup := nodup_nil
  known := by simp
  accounted := by simp
  acyclic := acyclic_nil
  source_mem := by simp
  target_mem := by simp

lemma Known.mono {q : Pipeline} {i : TerminalInfo}
    (hst : p.stages.map name ⊆ q.stages.map name) (htr : p.terminals ⊆ q.terminals) (h : Known p i) : Known q i := by
  intro m hm
  obtain ⟨hstg, hty, hin⟩ := h m hm
  refine ⟨hst hstg, hty, fun hkn => ?_⟩
  obtain ⟨j, hj, heq⟩ := hin hkn
  exact ⟨j, htr hj, heq⟩

/-- A pipeline may get more modules and terminals, as long as what is known of the new terminals is
right. -/
lemma Holds.grow (h : Holds links waiting held p) {q : Pipeline} {hel' : List TerminalInfo}
    (hln : q.links = p.links) (hwt : q.waiting = p.waiting) (hnd : (q.stages.map name).Nodup)
    (hst : p.stages.map name ⊆ q.stages.map name) (htr : p.terminals ⊆ q.terminals)
    (hkn : ∀ i ∈ hel' ++ q.terminals, i ∈ held ++ p.terminals ∨ Known q i) : Holds links waiting hel' q where
  __ := h
  links_eq := hln.trans h.links_eq
  waiting_eq := hwt.trans h.waiting_eq
  nodup := hnd
  known i hi := (hkn i hi).elim (fun hold => (h.known i hold).mono hst htr) id
  source_mem l hl := by
    obtain ⟨n, hn, heq⟩ := h.source_mem l hl
    exact ⟨n, hst hn, heq⟩
  target_mem l hl how := by
    obtain ⟨i, hi, heq⟩ := h.target_mem l hl how
    obtain ⟨hi, hof⟩ := mem_terminalsOf.1 hi
    exact ⟨i, mem_terminalsOf.2 ⟨htr hi, hof⟩, heq⟩

lemma meets_addStage (name : String) (spec : ModuleSpec) : Meets (addStage name spec) (Holds links waiting held)
      fun _ p => Holds links waiting held p ∧ name ∈ p.stages.map Stage.name := by
  refine read fun p h => ?_
  cases hfn : p.stage? name with
  | some s =>
    refine ret _ fun q hq => ?_
    subst hq
    have hnm : s.name = name := by simpa using find?_some hfn
    exact ⟨h, hnm ▸ mem_map_of_mem (mem_of_find?_eq_some hfn)⟩
  | none =>
    refine write fun q hq => ?_
    have hnew : name ∉ p.stages.map Stage.name := by simpa [stage?] using hfn
    refine ⟨h.grow rfl rfl ?_ ?_ (subset_append_left _ _) ?_, by simp⟩
    · rw [map_append, nodup_append]
      exact ⟨h.nodup, by simp, by simpa using hnew⟩
    · exact map_subset _ (subset_append_left _ _)
    · intro i hi
      rw [← append_assoc, mem_append, mem_singleton] at hi
      refine hi.imp id ?_
      rintro rfl m hm
      cases hm
      simp

lemma meets_nameTerminal (owner : Owner) (kind : TerminalKind) (name : Json) : Meets (nameTerminal owner kind name)
      (fun p => Holds links waiting held p ∧ ∀ m, owner = .module m → kind ≠ .param ∧ m ∈ p.stages.map Stage.name)
      fun r p => Holds links waiting (r.toOption.toList ++ held) p := by
  refine lift_bind (fun key _ => ?_) fun e _ p h => h.1
  refine read fun p h => ?_
  obtain ⟨h, how⟩ := h
  split
  · rename_i i hfn
    refine ret i fun q hq => ?_
    subst hq
    refine h.grow rfl rfl h.nodup (Subset.refl _) (Subset.refl _) fun j hj => .inl ?_
    rcases mem_cons.1 hj with rfl | hj
    · exact mem_append_right _ (mem_of_find?_eq_some hfn)
    · exact hj
  · extract_lets label join
    have hjn : ∀ type, (∀ m, owner = .module m → type ≠ none) → Meets (join type) (· = p)
        fun r p => Holds links waiting (r.toOption.toList ++ held) p := by
      intro type hty q hq
      subst hq
      let i : TerminalInfo := ⟨⟨owner, kind, key⟩, label, type⟩
      change Holds links waiting (i :: held) { q with terminals := q.terminals ++ [i] }
      refine h.grow rfl rfl h.nodup (Subset.refl _) (subset_append_left _ _) fun j hj => ?_
      by_cases hnew : j = i
      · subst hnew
        refine .inr fun m hm => ?_
        obtain ⟨hkn, hst⟩ := how m hm
        exact ⟨hst, iff_of_false (hty m hm) hkn, fun _ => ⟨i, by simp, rfl⟩⟩
      · exact .inl (by simpa [hnew] using hj)
    split
    · exact hjn none (by simp)
    · refine lift_bind (fun type _ => ?_) fun e _ q hq => hq ▸ h
      split
      · exact hjn _ (by simp)
      · exact fun q hq => hq ▸ h

lemma meets_nameStage (specs : List (String × Json)) (name : String) :
    Meets (nameStage specs name) (Holds links waiting held)
      fun r p => Holds links waiting held p ∧ (r = .ok () → name ∈ p.stages.map Stage.name) := by
  rw [nameStage]
  split
  · exact (meets_addStage _ _).mono (fun _ h => h) fun _ _ h => ⟨h.1, fun _ => h.2⟩
  · exact .refuse _ fun p h => ⟨h, nofun⟩

lemma Holds.known_param (h : Holds links waiting held p) {name : String}
    (hnm : name ∈ p.stages.map Stage.name) : Known p (p.info ⟨.module name, .param, paramKey⟩) := by
  rw [info]
  cases hfn : p.terminals.find? fun i => i.terminal = ⟨.module name, .param, paramKey⟩ with
  | some i => exact h.known i (mem_append_right _ (mem_of_find?_eq_some hfn))
  | none =>
    intro m hm
    cases hm
    exact ⟨hnm, by simp, by simp⟩

lemma meets_findTerminal (specs : List (String × Json)) (j : Json) :
    Meets (findTerminal specs j) (Holds links waiting held)
      fun r p => Holds links waiting (r.toOption.toList ++ held) p := by
  have hgl : ∀ kind name, Meets (nameTerminal .pipeline kind name) (Holds links waiting held)
      fun r p => Holds links waiting _ p := fun kind name =>
    (meets_nameTerminal .pipeline kind name).of_pre fun p h => ⟨h, nofun⟩
  rw [findTerminal]
  split
  · extract_lets name
    have hmd : ∀ kind, kind ≠ .param → Meets (nameTerminal (.module name) kind (j.item 3))
        (fun p => Holds links waiting held p ∧ name ∈ p.stages.map Stage.name)
        fun r p => Holds links waiting _ p := fun kind hkn =>
      (meets_nameTerminal _ kind _).of_pre fun p h => ⟨h.1, fun m hm => ⟨hkn, Owner.module.inj hm ▸ h.2⟩⟩
    refine bind (meets_nameStage specs name) (fun _ => ?_) fun e p h => h.1
    split
    · exact (hmd .input (by simp)).of_pre fun p h => ⟨h.1, h.2 rfl⟩
    · exact (hmd .output (by simp)).of_pre fun p h => ⟨h.1, h.2 rfl⟩
    · refine read fun p h => ret _ fun q hq => ?_
      subst hq
      refine h.1.grow rfl rfl h.1.nodup (Subset.refl _) (Subset.refl _) fun i hi => ?_
      rcases mem_cons.1 hi with rfl | hi
      · exact .inr (h.1.known_param (h.2 rfl))
      · exact .inl hi
    · exact .refuse _ fun p h => h.1
  · exact hgl .input _
  · exact hgl .output _
  · exact hgl .param _
  · exact .refuse _ fun p h => h

/-! ### Links that close a cycle

A link between modules is refused exactly if it would close a cycle with those that were accepted
since the modules were last put in order: putting them in order lets no link wait, and the search
follows the links that wait.
-/

open Relation Terminal

variable {α β : Type} {recent : List Link} {source target : TerminalInfo}

def cycleFault : Fault := .worded .runtime "Illegal connection: Cause a cycle!"

/-! ### All that linking can do -/

def linked (p : Pipeline) (l : Link) : Pipeline := { p with links := p.links ++ [l] }

/-- The pipeline with one link more, which waits. -/
def awaiting (p : Pipeline) (l : Link) : Pipeline := { p with links := p.links ++ [l], waiting := p.waiting ++ [l] }

def linkOf (source target : TerminalInfo) : Link := ⟨source.terminal, target.terminal⟩

/-- Whether a link would join terminals of modules that carry different types. -/
def typesDiffer (source target : TerminalInfo) : Bool := !target.terminal.isGlobal && source.type ≠ target.type

def typeFault (source target : TerminalInfo) : Fault :=
  .worded .runtime ("Illegal type (" ++ typeText source.type ++ " vs. " ++ typeText target.type ++
    "): binding type is not same!")

/-- The answer to what the search for a cycle found. -/
def searchAnswer : Option Bool → Except Fault Unit
  | some true => .ok ()
  | some false => .error cycleFault
  | none => .error (.plain .endless)

/-- All that linking two terminals can do: it is refused at once, makes a link from the pipeline
itself, is refused with the link made, or makes a link that waits and looks for a cycle. -/
lemma connect_cases (p : Pipeline) (source target : TerminalInfo) :
    (∃ e, checkRoles source.terminal target.terminal = .error e ∧ (connect source target).run.run p = (.error e, p)) ∨
    checkRoles source.terminal target.terminal = .ok () ∧ (source.terminal.isGlobal ∧
          (connect source target).run.run p = (.ok (), p.linked (linkOf source target)) ∨
        source.terminal.isGlobal = false ∧ typesDiffer source target ∧ (connect source target).run.run p =
            (.error (typeFault source target), p.linked (linkOf source target)) ∨
        source.terminal.isGlobal = false ∧ typesDiffer source target = false ∧ (connect source target).run.run p =
            (searchAnswer ((p.awaiting (linkOf source target)).avoids target.terminal.owner (p.stages.length + 1)
              source.terminal.owner), p.awaiting (linkOf source target))) := by
  cases hrl : checkRoles source.terminal target.terminal with
  | error e =>
    refine .inl ⟨e, rfl, ?_⟩
    rw [connect, hrl]
    rfl
  | ok =>
    refine .inr ⟨rfl, ?_⟩
    have hps (g : Unit → Step Unit) (q : Pipeline) :
        ((ofExcept (.ok ()) : Step Unit) >>= g).run.run q = (g ()).run.run q := rfl
    cases hgl : source.terminal.isGlobal with
    | true =>
      refine .inl ⟨rfl, ?_⟩
      simp only [connect, hrl, hgl]
      rfl
    | false =>
      cases hty : typesDiffer source target with
      | true =>
        refine .inr (.inl ⟨rfl, rfl, ?_⟩)
        rw [typesDiffer] at hty
        simp only [connect, hrl, hgl, hty]
        rfl
      | false =>
        refine .inr (.inr ⟨rfl, rfl, ?_⟩)
        rw [typesDiffer] at hty
        simp only [connect, hrl, hgl, hty, hps, step_modify_bind_run, step_get_bind_run,
          Bool.not_false, if_true, Bool.false_eq_true, if_false]
        simp only [awaiting, linkOf]
        cases avoids _ _ _ _ with
        | none => rfl
        | some found => cases found <;> rfl

/-! ### One link -/

lemma require_bind_eq_ok {check : Bool} {kind : FaultKind} {message : String} {f : Unit → Except Fault Unit} :
    (require check kind message >>= f) = .ok () ↔ check ∧ f () = .ok () := by
  cases check with
  | true => simp
  | false => simp [require, refuse]

lemma Owner.exists_eq_module {owner : Owner} (h : owner ≠ .pipeline) : ∃ m, owner = .module m := by
  cases owner with
  | pipeline => exact absurd rfl h
  | module m => exact ⟨m, rfl⟩

/-- Links leave outputs of modules, and enter inputs or parameters of modules. -/
lemma kinds_of_checkRoles {source target : Terminal} (h : checkRoles source target = .ok ())
    (hsrc : source.owner ≠ .pipeline) : source.kind = .output ∧ (target.owner ≠ .pipeline → target.kind ≠ .output) := by
  simp only [checkRoles, require_bind_eq_ok] at h
  obtain ⟨-, hpr, hin, -, hot, -⟩ := h
  refine ⟨?_, fun htgt => by simpa [isGlobal, hsrc, htgt] using hot⟩
  cases hkn : source.kind with
  | input => simp [isGlobal, hsrc, hkn] at hin
  | output => rfl
  | param => simp [isGlobal, hsrc, hkn] at hpr

/-- A link between modules whose terminals carry the same type enters an input that the pipeline
knows. -/
lemma exists_input_of_linked (hrl : checkRoles source.terminal target.terminal = .ok ())
    (hsrc : source.terminal.owner ≠ .pipeline) (htgt : target.terminal.owner ≠ .pipeline)
    (hty : source.type = target.type) (hs : Known p source) (ht : Known p target) :
    ∃ i ∈ p.terminalsOf target.terminal.owner .input, i.terminal = target.terminal := by
  obtain ⟨hout, hnot⟩ := kinds_of_checkRoles hrl hsrc
  obtain ⟨a, ha⟩ := Owner.exists_eq_module hsrc
  obtain ⟨b, hb⟩ := Owner.exists_eq_module htgt
  have hkn : target.terminal.kind = .input := by
    cases h : target.terminal.kind with
    | input => rfl
    | output => exact absurd h (hnot htgt)
    | param =>
      have hno := (hs a ha).2.1.1 (hty.trans ((ht b hb).2.1.2 h))
      rw [hout] at hno
      cases hno
  obtain ⟨i, hi, heq⟩ := (ht b hb).2.2 hkn
  exact ⟨i, mem_terminalsOf.2 ⟨hi, heq ▸ rfl, heq ▸ hkn⟩, heq⟩

/-- The search finds out whether a link from a module closes a cycle. -/
lemma Holds.exists_avoids (h : Holds links waiting held p) {l : Link} {a : String} (hsrc : l.source.owner = .module a)
    (ha : a ∈ p.stages.map Stage.name)
    (htgt : l.target.owner ≠ .pipeline → ∃ i ∈ p.terminalsOf l.target.owner .input, i.terminal = l.target) :
    ∃ b, (p.awaiting l).avoids l.target.owner (p.stages.length + 1) l.source.owner = some b ∧
      (b = false ↔ Reaches waiting l.target.owner l.source.owner) := by
  have hmem : ∀ k, k ∈ (p.awaiting l).waiting ↔ k ∈ waiting ∨ k = l := by simp [awaiting, h.waiting_eq]
  have hsr : Searchable (p.awaiting l) l.target.owner waiting :=
    { mem_links := fun k hk hne => ((hmem k).1 hk).resolve_right fun heq => hne (heq ▸ rfl)
      mem_waiting := fun k hk => (hmem k).2 (.inl hk)
      acyclic := h.acyclic
      source_mem := fun k hk => ((hmem k).1 hk).elim (h.source_mem k) fun heq => ⟨a, ha, heq ▸ hsrc⟩
      target_mem := fun k hk => ((hmem k).1 hk).elim (h.target_mem k) (· ▸ htgt)
      start_mem := fun hne => by
        obtain ⟨i, hi, -⟩ := htgt hne
        exact ne_nil_of_mem hi }
  rw [hsrc]
  exact hsr.exists_avoids _ a ha [] nodup_nil (by simp) (by simp [awaiting])

/-- A link from a module that passes the other checks is made to wait, and is refused for a cycle
exactly if its target leads to its source along the links that waited before. -/
lemma Holds.connect_run (h : Holds links waiting held p) (hs : Known p source) (ht : Known p target)
    (hrl : checkRoles source.terminal target.terminal = .ok ()) (hsrc : source.terminal.owner ≠ .pipeline)
    (hty : target.terminal.owner ≠ .pipeline → source.type = target.type) :
    let l : Link := ⟨source.terminal, target.terminal⟩
    Reaches waiting target.terminal.owner source.terminal.owner ∧
        (connect source target).run.run p = (.error cycleFault, p.awaiting l) ∨
      ¬ Reaches waiting target.terminal.owner source.terminal.owner ∧
        (connect source target).run.run p = (.ok (), p.awaiting l) ∧
        Holds (links ++ [l]) (waiting ++ [l]) [] (p.awaiting l) := by
  intro l
  obtain ⟨a, ha⟩ := Owner.exists_eq_module hsrc
  have hin := fun htgt => exists_input_of_linked hrl hsrc htgt (hty htgt) hs ht
  obtain ⟨b, hav, hb⟩ := h.exists_avoids (l := l) ha (hs a ha).1 hin
  have hrun : (connect source target).run.run p = (if b then .ok () else .error cycleFault, p.awaiting l) := by
    have hgl : source.terminal.isGlobal = false := by simpa [isGlobal] using hsrc
    have htyp : typesDiffer source target = false := by
      by_cases htgt : target.terminal.owner = .pipeline
      · simp [typesDiffer, isGlobal, htgt]
      · simp [typesDiffer, hty htgt]
    rcases connect_cases p source target with
      ⟨e, hrf, -⟩ | ⟨-, ⟨hpl, -⟩ | ⟨-, hdf, -⟩ | ⟨-, -, hrun⟩⟩
    · cases hrl.symm.trans hrf
    · cases hgl.symm.trans hpl
    · cases htyp.symm.trans hdf
    · change _ = (searchAnswer ((p.awaiting l).avoids l.target.owner _ l.source.owner), _) at hrun
      rw [hrun, hav]
      cases b <;> rfl
  cases b with
  | false => exact .inl ⟨hb.1 rfl, hrun⟩
  | true =>
    have hnot : ¬ Reaches waiting l.target.owner l.source.owner := fun hrc => by cases hb.2 hrc
    refine .inr ⟨hnot, hrun, ?_⟩
    exact
      { h with
        links_eq := by rw [awaiting, h.links_eq]
        waiting_eq := by rw [awaiting, h.waiting_eq]
        known := fun i hi => h.known i (mem_append_right _ hi)
        accounted := fun k => by
          rw [count_append, count_append]
          exact Nat.add_le_add_right (h.accounted k) _
        acyclic := h.acyclic.append hnot
        source_mem := fun k hk => (mem_append.1 hk).elim (h.source_mem k) fun hl =>
          ⟨a, (hs a ha).1, mem_singleton.1 hl ▸ ha⟩
        target_mem := fun k hk => (mem_append.1 hk).elim (h.target_mem k) fun hl => by
          obtain rfl := mem_singleton.1 hl
          exact hin }

/-! ### Steps -/

/-- Whether a link goes from a module to a module. -/
def Link.joinsModules (l : Link) : Bool := !l.source.isGlobal && !l.target.isGlobal

/-- A step makes links: those between modules wait if it answers, and none of them waits if it is
refused, unless it is refused for a cycle. -/
def Makes {α : Type} (links waiting : List Link) (r : Except Fault α) (p : Pipeline) : Prop :=
  r = .error cycleFault ∨ ∃ made, Holds (links ++ made) p.waiting [] p ∧
    ∀ l, l.joinsModules = true → (l ∈ p.waiting ↔ l ∈ waiting ∨ (∃ a, r = .ok a) ∧ l ∈ made)

/-- A link that does not wait leaves all else as it was. -/
lemma Holds.unawaited (h : Holds links waiting held p) (l : Link) :
    Holds (links ++ [l]) waiting [] { p with links := p.links ++ [l] } where
  __ := h
  links_eq := by rw [h.links_eq]
  known i hi := h.known i (mem_append_right _ hi)
  accounted k := by
    rw [count_append]
    exact Nat.le_add_right_of_le (h.accounted k)

lemma Holds.makes {made : List Link} {r : Except Fault α} (h : Holds (links ++ made) waiting [] p)
    (hr : ∀ a, r = .ok a → ∀ l ∈ made, l.joinsModules = false) : Makes links waiting r p := by
  obtain rfl := h.waiting_eq
  refine .inr ⟨made, h, fun l hl => ⟨.inl, (·.elim id ?_)⟩⟩
  rintro ⟨⟨a, ha⟩, hmd⟩
  rw [hr a ha l hmd] at hl
  cases hl

lemma Holds.makes_nothing (h : Holds links waiting held p) (r : Except Fault α) : Makes links waiting r p := by
  have hp : Holds (links ++ []) waiting [] p := by
    rw [append_nil]
    exact { h with known := fun i hi => h.known i (mem_append_right _ hi) }
  exact hp.makes fun _ _ l hl => absurd hl not_mem_nil

lemma Makes.answer {a : α} (h : Makes links waiting (.ok a) p) (b : β) : Makes links waiting (.ok b) p := by
  simpa [Makes] using h

lemma Makes.refusal {e : Fault} (h : Makes links waiting (.error e : Except Fault α) p) :
    Makes links waiting (.error e : Except Fault β) p := by
  simpa [Makes] using h

lemma meets_connect (source target : TerminalInfo) :
    Meets (connect source target) (Holds links waiting [target, source]) (Makes links waiting) := by
  intro p h
  have hs := h.known source (by simp)
  have ht := h.known target (by simp)
  rcases connect_cases p source target with
    ⟨e, -, hrun⟩ | ⟨hrl, ⟨hgl, hrun⟩ | ⟨-, -, hrun⟩ | ⟨hgl, hty, -⟩⟩
  · rw [hrun]
    exact h.makes_nothing _
  · rw [hrun]
    refine (h.unawaited _).makes fun _ _ k hk => ?_
    simp [mem_singleton.1 hk, linkOf, Link.joinsModules, hgl]
  · rw [hrun]
    exact (h.unawaited _).makes fun _ ha => by cases ha
  · have hsrc : source.terminal.owner ≠ .pipeline := by simpa [isGlobal] using hgl
    have htyp : target.terminal.owner ≠ .pipeline → source.type = target.type := by
      simpa [typesDiffer, isGlobal] using hty
    rcases h.connect_run hs ht hrl hsrc htyp with ⟨-, hrun⟩ | ⟨-, hrun, haft⟩
    · exact .inl (congrArg Prod.fst hrun)
    · rw [hrun]
      refine .inr ⟨[linkOf source target], haft.waiting_eq ▸ haft, fun k _ => ?_⟩
      rw [haft.waiting_eq, mem_append]
      exact or_congr_right ⟨fun hk => ⟨⟨(), rfl⟩, hk⟩, And.right⟩

lemma meets_sort : Meets sort (Holds links waiting []) fun r p => r = .ok () ∧ Holds links [] [] p := by
  refine read fun p h => ?_
  obtain ⟨order, hsr, hor, -⟩ := exists_order (p := p)
    (fun l => by rw [h.links_eq, h.waiting_eq]; exact h.accounted l) (h.waiting_eq ▸ h.acyclic)
    (h.waiting_eq ▸ h.source_mem) h.nodup
  have hpm : ((p.numbered order).map name).Perm (p.stages.map name) := by
    rw [(numbered_numbered fun n hn => hor.mem_iff.1 hn).map_name]
    exact hor
  rw [hsr]
  refine write fun q hq => ⟨rfl, ?_⟩
  exact
    { h with
      waiting_eq := rfl
      nodup := hpm.nodup_iff.2 h.nodup
      known := fun i hi => (h.known i hi).mono (fun n hn => hpm.mem_iff.2 hn) fun j hj => hj
      accounted := by simp
      acyclic := acyclic_nil
      source_mem := by simp
      target_mem := by simp }

variable (specs : List (String × Json))

/-- Whether a step puts the modules in order. -/
def putsInOrder (step : Json) : Bool := !(["connect", "get", "affinity", "indices"].contains (step.item 0).text)

/-- Steps that put the modules in order let no link wait; other steps make links. -/
lemma meets_act (step : Json) : Meets (act specs step) (Holds links waiting [])
      fun r p => if putsInOrder step then Holds links [] [] p else Makes links waiting r p := by
  have hmk {x : Step Report} (hor : putsInOrder step = false)
      (h : Meets x (Holds links waiting []) (Makes links waiting)) : Meets x (Holds links waiting [])
        fun r p => if putsInOrder step then Holds links [] [] p else Makes links waiting r p := by
    simpa only [hor, Bool.false_eq_true, if_false] using h
  rw [act]
  split
  · rename_i hnm
    refine hmk (by simp [putsInOrder, hnm]) ?_
    refine bind (meets_findTerminal specs _) (fun source => ?_) fun e p h => h.makes_nothing _
    refine bind (meets_findTerminal specs _) (fun target => ?_) fun e p h => h.makes_nothing _
    exact bind (meets_connect source target) (fun _ => ret _ fun p h => h.answer _) fun e p h => h.refusal
  · rename_i hnm
    refine hmk (by simp [putsInOrder, hnm]) ?_
    refine bind (meets_findTerminal specs _) (fun i => ?_) fun e p h => h.makes_nothing _
    exact ask _ fun p h => h.makes_nothing _
  · rename_i hnm
    refine hmk (by simp [putsInOrder, hnm]) ?_
    refine bind (meets_nameStage specs _) (fun i => ?_) fun e p h => h.1.makes_nothing _
    refine change_bind (ret _ ?_)
    rintro _ ⟨p, ⟨h, -⟩, rfl⟩
    have hns : (p.stages.map fun s => if s.name == (step.item 1).text
        then { s with affinity := (step.item 2).text } else s).map name = p.stages.map name := by
      rw [List.map_map]
      exact map_congr_left fun s _ => by simp only [Function.comp]; split <;> rfl
    suffices haft : Holds links waiting [] _ from haft.makes_nothing _
    refine h.grow rfl rfl ?_ ?_ (Subset.refl _) fun i hi => .inl hi
    · exact hns.symm ▸ h.nodup
    · exact fun n hn => hns.symm ▸ hn
  · rename_i hnm
    have hor : putsInOrder step := by simp [putsInOrder, hnm]
    simp only [hor, if_true]
    refine bind meets_sort (fun _ => ?_) fun e p h => h.2
    exact ask _ fun p h => h.2
  · rename_i hnm
    refine hmk (by simp [putsInOrder, hnm]) ?_
    exact ask _ fun p h => h.makes_nothing _
  · rename_i hcn hget haf _ hin
    have hor : putsInOrder step := by simpa [putsInOrder] using ⟨hcn, hget, haf, hin⟩
    simp only [hor, if_true]
    refine bind meets_sort (fun _ => ?_) fun e p h => h.2
    refine read fun p h => lift_bind (fun c _ => ret _ fun q hq => hq ▸ h.2) ?_
    exact fun e _ q hq => hq ▸ h.2

/-! ### Runs -/

def answer (p : Pipeline) (step : Json) : Except Fault Report := ((act specs step).run.run p).1

def after (p : Pipeline) (step : Json) : Pipeline := ((act specs step).run.run p).2

/-- The links between modules that a step accepts. -/
def accepted (p : Pipeline) (step : Json) : List Link :=
  match answer specs p step with
  | .ok _ => ((after specs p step).links.drop p.links.length).filter Link.joinsModules
  | .error _ => []

def answers (specs : List (String × Json)) (p : Pipeline) : List Json → List (Except Fault Report)
  | [] => []
  | step :: rest => answer specs p step :: answers specs (after specs p step) rest

/-- The links between modules that steps accept after given ones, where some steps make a new
start. -/
def acceptedSince (restarts : Json → Bool) (specs : List (String × Json)) (p : Pipeline)
    (links : List Link) : List Json → List Link
  | [] => links
  | step :: rest => acceptedSince restarts specs (after specs p step)
      ((if restarts step then [] else links) ++ accepted specs p step) rest

/-- The links between modules that steps on a new pipeline accept. -/
def allAccepted (steps : List Json) : List Link := acceptedSince (fun _ => false) specs {} [] steps

/-- The links between modules that steps on a new pipeline accept after the modules are last put in
order. -/
def lastAccepted (steps : List Json) : List Link := acceptedSince putsInOrder specs {} [] steps

/-- A pipeline in which exactly the links of a list wait, among those between modules. -/
structure Tracks (recent : List Link) (p : Pipeline) : Prop where
  holds : Holds p.links p.waiting [] p
  mem_iff : ∀ l, l ∈ recent ↔ l ∈ p.waiting ∧ l.joinsModules = true

lemma Tracks.start : Tracks [] {} where
  holds := holds_empty
  mem_iff := by simp

/-- After a step the links that wait are those that waited before, unless the step put the modules
in order, and those that it accepts. -/
lemma Tracks.after (h : Tracks recent p) (step : Json) (han : answer specs p step ≠ .error cycleFault) :
    Tracks ((if putsInOrder step then [] else recent) ++ accepted specs p step) (after specs p step) := by
  have hact : if putsInOrder step then Holds p.links [] [] (.after specs p step)
      else Makes p.links p.waiting (answer specs p step) (.after specs p step) :=
    meets_act specs step p h.holds
  cases hor : putsInOrder step with
  | true =>
    rw [hor] at hact
    have hac : accepted specs p step = [] := by
      rw [accepted, hact.links_eq, drop_length]
      split <;> rfl
    rw [hac]
    exact ⟨by rw [hact.links_eq, hact.waiting_eq]; exact hact, by simp [hact.waiting_eq]⟩
  | false =>
    rw [hor] at hact
    obtain ⟨made, hhl, hmem⟩ := hact.resolve_left han
    have hac : ∀ l, l ∈ accepted specs p step ↔ (∃ a, answer specs p step = .ok a) ∧ l ∈ made ∧ l.joinsModules := by
      rw [accepted, hhl.links_eq]
      cases answer specs p step with
      | ok a => simp
      | error e => simp
    refine ⟨by rw [hhl.links_eq]; exact hhl, fun l => ?_⟩
    simp only [Bool.false_eq_true, if_false, mem_append, hac, h.mem_iff]
    by_cases hl : l.joinsModules
    · simp [hmem l hl, hl]
    · simp [hl]

lemma Tracks.run (h : Tracks recent p) (steps : List Json) (hst : .error cycleFault ∉ answers specs p steps) :
    Tracks (acceptedSince putsInOrder specs p recent steps) (steps.foldl (Pipeline.after specs) p) := by
  induction steps generalizing p recent with
  | nil => exact h
  | cons step rest ih =>
    rw [answers, mem_cons, not_or] at hst
    exact ih (h.after specs step (.symm hst.1)) hst.2

/-- Along the links that wait a module leads to a module only through modules. -/
lemma Tracks.reaches_iff (h : Tracks recent p) {a b : Owner} (hb : b ≠ .pipeline) :
    Reaches p.waiting a b ↔ Reaches recent a b := by
  constructor
  · intro hrc
    induction hrc with
    | refl => exact .refl
    | tail hrc hfd ih =>
      obtain ⟨l, hl, rfl, rfl⟩ := hfd
      obtain ⟨n, -, hsrc⟩ := h.holds.source_mem l hl
      have hjn : l.joinsModules := by simp [Link.joinsModules, isGlobal, hb, hsrc]
      exact (ih (by simp [hsrc])).tail (feeds_of_mem ((h.mem_iff l).2 ⟨hl, hjn⟩))
  · exact .mono (feeds_mono fun l hl => ((h.mem_iff l).1 hl).1) a b

/-- Where no step puts the modules in order after a link was accepted, no link is forgotten. -/
lemma acceptedSince_eq (p : Pipeline) (links : List Link) (steps : List Json)
    (h : ∀ before step rest, steps = before ++ step :: rest → putsInOrder step →
      acceptedSince (fun _ => false) specs p links before = []) :
    acceptedSince putsInOrder specs p links steps = acceptedSince (fun _ => false) specs p links steps := by
  induction steps generalizing p links with
  | nil => rfl
  | cons step rest ih =>
    have hkp : (if putsInOrder step then [] else links) = links := by
      cases hor : putsInOrder step with
      | true => exact (h [] step rest rfl hor).symm
      | false => rfl
    rw [acceptedSince, hkp]
    exact ih _ _ fun before later rest' heq hor => h (step :: before) later rest' (by rw [heq, cons_append]) hor

/-- In every run in which no link was refused for a cycle before, the links between modules that
were accepted since the modules were last put in order form no cycle, and a link between modules
that passes the other checks is refused, for a cycle, exactly if it would close one with them. These
are all links between modules that were accepted if no module was put in order after one was. -/
theorem refused_iff_closes_cycle (specs : List (String × Json)) (steps : List Json)
    (hsteps : .error cycleFault ∉ answers specs {} steps) :
    Acyclic (lastAccepted specs steps) ∧
    (let p := steps.foldl (after specs) {}
      ∀ source ∈ p.terminals, ∀ target ∈ p.terminals,
        source.terminal.owner ≠ .pipeline → target.terminal.owner ≠ .pipeline →
        checkRoles source.terminal target.terminal = .ok () → source.type = target.type →
        let closes := Reaches (lastAccepted specs steps) target.terminal.owner source.terminal.owner
        (((connect source target).run.run p).1 = .error cycleFault ↔ closes) ∧
          (((connect source target).run.run p).1 = .ok () ↔ ¬ closes)) ∧
    ((∀ before step rest, steps = before ++ step :: rest → putsInOrder step = true →
        allAccepted specs before = []) →
      lastAccepted specs steps = allAccepted specs steps) := by
  have h : Tracks (lastAccepted specs steps) (steps.foldl (after specs) {}) := Tracks.start.run specs steps hsteps
  refine ⟨h.holds.acyclic.mono fun l hl => ((h.mem_iff l).1 hl).1, ?_, acceptedSince_eq specs {} [] steps⟩
  intro p source hs target ht hsource htarget hroles htype closes
  have hknown : ∀ i ∈ p.terminals, Known p i := fun i hi => h.holds.known i hi
  have hcloses : closes ↔ Reaches p.waiting target.terminal.owner source.terminal.owner := (h.reaches_iff hsource).symm
  rcases h.holds.connect_run (hknown source hs) (hknown target ht) hroles hsource fun _ => htype with
    ⟨hreach, hrun⟩ | ⟨hreach, hrun, -⟩
  · rw [hrun]
    exact ⟨iff_of_true rfl (hcloses.2 hreach), iff_of_false nofun (not_not.2 (hcloses.2 hreach))⟩
  · rw [hrun]
    exact ⟨iff_of_false nofun (mt hcloses.1 hreach), iff_of_true rfl (mt hcloses.1 hreach)⟩

/-! ### Relays

Modules with one input and one result, whose links are known by the modules that they join. -/

/-- The refusal among the ways to answer. -/
def refusal? {α : Type} : Except Fault α → Option Fault
  | .ok _ => none
  | .error e => some e

/-- Three modules that hand on what they get. -/
def relays : List (String × Json) :=
  let spec : Json := .obj [("inputs", .arr [.arr [.str "x", .str "t"]]), ("outputs", .str "t")]
  [("a", spec), ("b", spec), ("c", spec)]

def relayOutput (m : String) : TerminalInfo := ⟨⟨.module m, .output, .whole 0⟩, "0", some "t"⟩

def relayInput (m : String) : TerminalInfo := ⟨⟨.module m, .input, .text "x"⟩, "x", some "t"⟩

def relayLink (a b : String) : Link := ⟨(relayOutput a).terminal, (relayInput b).terminal⟩

def nameOutput (m : String) : Json := .arr [.str "mod", .str m, .str "output", .int 0]

def nameInput (m : String) : Json := .arr [.str "mod", .str m, .str "input", .str "x"]

def linkRelays (a b : String) : Json := .arr [.str "connect", nameOutput a, nameInput b]

/-- Three relays in a row, with the terminals of a link back. -/
def relayRow : List Json :=
  [linkRelays "a" "b", linkRelays "b" "c", .arr [.str "get", nameOutput "c"], .arr [.str "get", nameInput "a"]]

/-- In a row of three relays the link back from the last to the first is refused, and a second link
forward is accepted. -/
theorem relayRow_link_back_refused :
    .error cycleFault ∉ answers relays {} relayRow ∧
    lastAccepted relays relayRow = [relayLink "a" "b", relayLink "b" "c"] ∧
    lastAccepted relays relayRow = allAccepted relays relayRow ∧
    ((connect (relayOutput "c") (relayInput "a")).run.run (relayRow.foldl (after relays) {})).1 =
      .error cycleFault ∧
    ((connect (relayOutput "a") (relayInput "c")).run.run (relayRow.foldl (after relays) {})).1 = .ok () := by
  have hsteps : .error cycleFault ∉ answers relays {} relayRow := fun h =>
    absurd (List.mem_map_of_mem (f := refusal?) h) (by decide +kernel)
  have hlast : lastAccepted relays relayRow = [relayLink "a" "b", relayLink "b" "c"] := by decide +kernel
  have hnames : ∀ m, m = "a" ∨ m = "b" ∨ m = "c" →
      relayOutput m ∈ (relayRow.foldl (after relays) {}).terminals ∧
        relayInput m ∈ (relayRow.foldl (after relays) {}).terminals := by
    rintro m (rfl | rfl | rfl) <;> decide +kernel
  obtain ⟨-, hconnect, hall⟩ := refused_iff_closes_cycle relays relayRow hsteps
  have hback := hconnect _ (hnames "c" (by simp)).1 _ (hnames "a" (by simp)).2 nofun nofun (by rfl) rfl
  have hforth := hconnect _ (hnames "a" (by simp)).1 _ (hnames "c" (by simp)).2 nofun nofun (by rfl) rfl
  refine ⟨hsteps, hlast, hall fun before step rest heq horder => ?_, hback.1.2 ?_, hforth.2.2 ?_⟩
  · have hmem : step ∈ relayRow := heq ▸ by simp
    have hnone : ∀ s ∈ relayRow, putsInOrder s = false := by decide +kernel
    rw [hnone step hmem] at horder
    cases horder
  · exact .tail (.single (feeds_of_mem List.mem_cons_self))
      (feeds_of_mem (List.mem_cons_of_mem _ List.mem_cons_self))
  · intro hreach
    obtain heq | ⟨_, ⟨l, hl, hsource, -⟩, -⟩ := hreach.cases_head
    · exact absurd heq (by decide)
    · have hnot : ∀ k ∈ [relayLink "a" "b", relayLink "b" "c"], k.source.owner ≠ .module "c" := by decide
      exact hnot l hl hsource

/-- A link back is accepted once the modules were put in order, and after a link was refused for a
cycle the search may never end, though the link that it is for closes none. -/
theorem cycle_accepted_and_endless :
    ¬ Acyclic (allAccepted relays [linkRelays "a" "b", .arr [.str "config"], linkRelays "b" "a"]) ∧
    (answers relays {} [linkRelays "a" "b", linkRelays "b" "a", linkRelays "b" "c"]).map refusal? =
      [none, some cycleFault, some (.plain .endless)] := by
  have hall : allAccepted relays [linkRelays "a" "b", .arr [.str "config"], linkRelays "b" "a"] =
      [relayLink "a" "b", relayLink "b" "a"] := by decide +kernel
  refine ⟨fun hacyclic => ?_, by decide +kernel⟩
  rw [hall] at hacyclic
  exact hacyclic (.module "a") (.tail (.single (feeds_of_mem List.mem_cons_self))
    (feeds_of_mem (List.mem_cons_of_mem _ List.mem_cons_self)))

end TensorToolchain.Pipeline
