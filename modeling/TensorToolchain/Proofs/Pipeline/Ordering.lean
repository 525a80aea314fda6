import Mathlib
import TensorToolchain.Pipeline.Session

/-!
# Putting the modules in order

Where the links that wait form no cycle, every round over the modules frees at least one of them, so
that all of them come into order and no link waits any longer.
-/

namespace TensorToolchain.Pipeline

open List Relation

/-! ### What comes before a module

Links lead from owners of terminals to owners of terminals. Where they form no cycle, the search
through the sources that still wait ends, and finds out whether one owner leads to another.
-/

variable {l : Link} {owner : Owner} {source : Terminal} {kind : TerminalKind} {i : TerminalInfo}

/-- An owner feeds another if a link leads from a terminal of the one to a terminal of the other. -/
def Feeds (links : List Link) (a b : Owner) : Prop := ∃ l ∈ links, l.source.owner = a ∧ l.target.owner = b

/-- An owner leads to another along links, or is the same. -/
abbrev Reaches (links : List Link) : Owner → Owner → Prop := ReflTransGen (Feeds links)

/-- No owner leads to itself along one link or more. -/
def Acyclic (links : List Link) : Prop := ∀ a, ¬ TransGen (Feeds links) a a

section Links

variable {links others : List Link} {a b : Owner}

lemma feeds_of_mem (h : l ∈ links) : Feeds links l.source.owner l.target.owner := ⟨l, h, rfl, rfl⟩

lemma feeds_mono (h : ∀ l ∈ links, l ∈ others) : Feeds links ≤ Feeds others := by
  rintro a b ⟨l, hl, hs, ht⟩
  exact ⟨l, h l hl, hs, ht⟩

lemma Acyclic.mono (h : Acyclic others) (hsub : ∀ l ∈ links, l ∈ others) : Acyclic links :=
  fun a ha => h a (.mono (feeds_mono hsub) a a ha)

lemma acyclic_nil : Acyclic [] := by
  intro a ha
  obtain ⟨_, ⟨_, hmem, _⟩, _⟩ := TransGen.head'_iff.1 ha
  exact absurd hmem not_mem_nil

/-- A way along links and one link more either avoids it, or leads to its source and on from its
target. -/
lemma transGen_feeds_append (h : TransGen (Feeds (links ++ [l])) a b) :
    TransGen (Feeds links) a b ∨ Reaches links a l.source.owner ∧ Reaches links l.target.owner b := by
  have split : ∀ {c d}, Feeds (links ++ [l]) c d → Feeds links c d ∨ c = l.source.owner ∧ d = l.target.owner := by
    rintro c d ⟨k, hk, rfl, rfl⟩
    rcases mem_append.1 hk with hk | hk
    · exact .inl (feeds_of_mem hk)
    · rw [mem_singleton.1 hk]
      exact .inr ⟨rfl, rfl⟩
  induction h with
  | single hab =>
    rcases split hab with hab | ⟨rfl, rfl⟩
    · exact .inl (.single hab)
    · exact .inr ⟨.refl, .refl⟩
  | tail _ hbc ih =>
    rcases split hbc with hbc | ⟨rfl, rfl⟩
    · exact ih.imp (·.tail hbc) fun h => ⟨h.1, h.2.tail hbc⟩
    · exact .inr ⟨ih.elim TransGen.to_reflTransGen And.left, .refl⟩

lemma Acyclic.append (h : Acyclic links) (hl : ¬ Reaches links l.target.owner l.source.owner) :
    Acyclic (links ++ [l]) := by
  intro a ha
  rcases transGen_feeds_append ha with ha | ⟨hto, hfr⟩
  · exact h a ha
  · exact hl (hfr.trans hto)

end Links

/-! ### The search -/

/-- A search through all items of a list ends where the search from each of them does, and misses as
soon as one of them does. -/
lemma exists_allM_eq_some {α : Type} {f : α → Option Bool} {miss : α → Prop} {l : List α}
    (h : ∀ a ∈ l, ∃ b, f a = some b ∧ (b = false ↔ miss a)) :
    ∃ b, l.allM f = some b ∧ (b = false ↔ ∃ a ∈ l, miss a) := by
  induction l with
  | nil => exact ⟨true, rfl, by simp⟩
  | cons a l ih =>
    obtain ⟨b, hb, hms⟩ := h a mem_cons_self
    obtain ⟨c, hc, hr⟩ := ih fun d hd => h d (mem_cons_of_mem a hd)
    cases b with
    | false => exact ⟨false, by simp [allM, hb], by simp [hms.1 rfl]⟩
    | true =>
      have hnot : ¬ miss a := fun hm => Bool.noConfusion (hms.2 hm)
      exact ⟨c, by simpa [allM, hb] using hc, by simpa [hnot] using hr⟩

/-- What the search for an owner among those before a module may rely on: apart from links into that
owner, the links that wait are among given ones, which form no cycle; they leave modules of the
pipeline, and where they enter a module, they enter an input that the pipeline knows. -/
structure Searchable (p : Pipeline) (start : Owner) (links : List Link) : Prop where
  mem_links : ∀ l ∈ p.waiting, l.target.owner ≠ start → l ∈ links
  mem_waiting : ∀ l ∈ links, l ∈ p.waiting
  acyclic : Acyclic links
  source_mem : ∀ l ∈ p.waiting, ∃ n ∈ p.stages.map Stage.name, l.source.owner = .module n
  target_mem : ∀ l ∈ p.waiting, l.target.owner ≠ .pipeline →
    ∃ i ∈ p.terminalsOf l.target.owner .input, i.terminal = l.target
  start_mem : start ≠ .pipeline → p.terminalsOf start .input ≠ []

variable {p : Pipeline} {start : Owner} {links : List Link}

lemma mem_terminalsOf : i ∈ p.terminalsOf owner kind ↔
      i ∈ p.terminals ∧ i.terminal.owner = owner ∧ i.terminal.kind = kind := by
  simp [terminalsOf]

lemma mem_parentsOf {terminal : Terminal} :
    source ∈ p.parentsOf terminal ↔ ∃ l ∈ p.waiting, l.target = terminal ∧ l.source = source := by
  simp [parentsOf, and_assoc]

/-- What an owner's terminal awaits comes along a link into that owner. -/
lemma exists_link_of_mem_parentsOf (hi : i ∈ p.terminalsOf owner kind) (h : source ∈ p.parentsOf i.terminal) :
    ∃ l ∈ p.waiting, l.source = source ∧ l.target.owner = owner := by
  obtain ⟨l, hl, htgt, hsrc⟩ := mem_parentsOf.1 h
  exact ⟨l, hl, hsrc, by rw [htgt, (mem_terminalsOf.1 hi).2.1]⟩

/-- The search from a module ends, and misses exactly if the owner looked for leads to it. The
modules that were passed on the way come after the module and are all different, so that the steps
suffice. -/
lemma Searchable.exists_avoids (h : Searchable p start links) (fuel : Nat) (name : String)
    (hnm : name ∈ p.stages.map Stage.name) (passed : List String) (hnd : passed.Nodup)
    (hps : ∀ m ∈ passed, m ∈ p.stages.map Stage.name ∧ TransGen (Feeds links) (.module name) (.module m))
    (hfl : p.stages.length ≤ fuel + passed.length) : ∃ b, p.avoids start fuel (.module name) = some b ∧
      (b = false ↔ Reaches links start (.module name)) := by
  induction fuel generalizing name passed with
  | zero =>
    have hnew : name ∉ passed := fun hmem => h.acyclic _ (hps _ hmem).2
    have hall : (name :: passed) ⊆ p.stages.map Stage.name := by
      intro m hm
      rcases mem_cons.1 hm with rfl | hm
      · exact hnm
      · exact (hps m hm).1
    have hlen := (subperm_of_subset (nodup_cons.2 ⟨hnew, hnd⟩) hall).length_le
    rw [length_cons, length_map] at hlen
    omega
  | succ fuel ih =>
    rw [avoids]
    by_cases hst : .module name = start
    · subst hst
      obtain ⟨i, rest, hins⟩ := exists_cons_of_ne_nil (h.start_mem (by simp))
      exact ⟨false, by simp [hins], iff_of_true rfl .refl⟩
    · simp only [hst, if_false]
      -- the modules before this one are searched with this one added to those that were passed
      have hpr : ∀ i ∈ p.terminalsOf (.module name) .input, ∀ parent ∈ p.parentsOf i.terminal,
          ∃ b, p.avoids start fuel parent.owner = some b ∧ (b = false ↔ Reaches links start parent.owner) := by
        intro i hi parent hpr
        obtain ⟨l, hl, rfl, how⟩ := exists_link_of_mem_parentsOf hi hpr
        obtain ⟨earlier, her, hsrc⟩ := h.source_mem l hl
        have hfd : Feeds links (.module earlier) (.module name) := ⟨l, h.mem_links l hl (how ▸ hst), hsrc, how⟩
        rw [hsrc]
        refine ih earlier her (name :: passed) (nodup_cons.2 ⟨fun hmem => ?_, hnd⟩) ?_ ?_
        · exact h.acyclic _ (hps _ hmem).2
        · intro m hm
          rcases mem_cons.1 hm with rfl | hm
          · exact ⟨hnm, .single hfd⟩
          · exact ⟨(hps m hm).1, .head hfd (hps m hm).2⟩
        · rw [length_cons]
          omega
      obtain ⟨b, hb, hms⟩ := exists_allM_eq_some fun i hi => exists_allM_eq_some (hpr i hi)
      refine ⟨b, hb, hms.trans ⟨?_, fun hrc => ?_⟩⟩
      · rintro ⟨i, hi, parent, hmem, hrc⟩
        obtain ⟨l, hl, rfl, how⟩ := exists_link_of_mem_parentsOf hi hmem
        exact hrc.tail ⟨l, h.mem_links l hl (how ▸ hst), rfl, how⟩
      · obtain heq | ⟨c, hrc, l, hl, hsrc, how⟩ := hrc.cases_tail
        · exact absurd heq hst
        · obtain ⟨i, hi, htr⟩ := h.target_mem l (h.mem_waiting l hl) (by simp [how])
          refine ⟨i, how ▸ hi, l.source, ?_, hsrc ▸ hrc⟩
          exact mem_parentsOf.2 ⟨l, h.mem_waiting l hl, htr.symm, rfl⟩

variable {remaining : List String}

/-- The pipeline in which no link from some modules waits any longer. -/
def without (p : Pipeline) (names : List String) : Pipeline :=
  { p with waiting := p.waiting.filter fun l => names.all (l.source.owner ≠ .module ·) }

@[simp] lemma mem_waiting_without {names : List String} :
    l ∈ (p.without names).waiting ↔ l ∈ p.waiting ∧ ∀ n ∈ names, l.source.owner ≠ .module n := by
  simp [without]

/-- Each link waits at most as often as it was made. -/
def Accounted (p : Pipeline) : Prop := ∀ l, p.waiting.count l ≤ p.links.count l

lemma Accounted.without (h : Accounted p) (names : List String) : Accounted (p.without names) :=
  fun l => le_trans (filter_sublist.count_le l) (h l)

/-- Taking out each link of some kind as often as it was made leaves the links of other kinds. -/
lemma foldl_erase_eq_filter {waiting : List Link} (kind : Link → Bool)
    (h : ∀ l, waiting.count l ≤ links.count l) :
    (links.filter kind).foldl List.erase waiting = waiting.filter fun l => !kind l := by
  have hcnt : ∀ l, ((links.filter kind).foldl .erase waiting).count l = (waiting.filter (!kind ·)).count l := by
    intro l
    rw [← diff_eq_foldl, count_diff]
    cases hkn : kind l with
    | true =>
      have hnot : l ∉ waiting.filter fun l => !kind l := by simp [hkn]
      rw [count_filter hkn, count_eq_zero.2 hnot]
      exact Nat.sub_eq_zero_of_le (h l)
    | false =>
      have hnot : l ∉ links.filter kind := by simp [hkn]
      rw [count_eq_zero.2 hnot, count_filter (by simp [hkn]), Nat.sub_zero]
  have hkp : ∀ l ∈ (links.filter kind).foldl .erase waiting, (!kind l) = true := by
    intro l hl
    have hpos := count_pos_iff.2 hl
    rw [hcnt] at hpos
    exact (mem_filter.1 (count_pos_iff.1 hpos)).2
  have hsub : ((links.filter kind).foldl .erase waiting).Sublist (waiting.filter (!kind ·)) := by
    rw [← filter_eq_self.2 hkp, ← diff_eq_foldl]
    exact (diff_sublist _ _).filter _
  exact hsub.eq_of_length (perm_iff_count.2 hcnt).length_eq

lemma release_eq (h : Accounted p) (name : String) : p.release name = p.without [name] := by
  rw [release, foldl_erase_eq_filter _ h, without]
  simp

lemma without_without (p : Pipeline) (name : String) (names : List String) :
    (p.without [name]).without names = p.without (name :: names) := by
  simp [without, filter_filter, Bool.and_comm]

/-! ### One round -/

lemma exists_link_of_not_isRoot {name : String} (h : p.isRoot name = false) :
    ∃ l ∈ p.waiting, l.target.owner = .module name := by
  simp only [isRoot, all_eq_false, List.isEmpty_iff] at h
  obtain ⟨i, hi, hne⟩ := h
  obtain ⟨source, hsrc⟩ := exists_mem_of_ne_nil _ hne
  obtain ⟨l, hl, -, how⟩ := exists_link_of_mem_parentsOf hi hsrc
  exact ⟨l, hl, how⟩

/-- Among modules that all waiting links leave one is free. -/
lemma exists_isRoot (hac : Acyclic p.waiting) (hsrc : ∀ l ∈ p.waiting, ∃ n ∈ remaining, l.source.owner = .module n)
    (hne : remaining ≠ []) : ∃ n ∈ remaining, p.isRoot n := by
  by_contra! hno
  let before : String → String → Prop := fun m n => TransGen (Feeds p.waiting) (.module m) (.module n)
  have : IsStrictOrder String before := { irrefl := fun n hn => hac _ hn, trans := fun _ _ _ h h' => h.trans h' }
  have hwf : {n | n ∈ remaining}.WellFoundedOn before := (finite_toSet remaining).wellFoundedOn
  obtain ⟨n, hn⟩ := exists_mem_of_ne_nil _ hne
  -- a module without end of modules before it would come before itself
  refine hwf.induction (P := fun _ => False) hn fun n hn ih => ?_
  obtain ⟨l, hl, how⟩ := exists_link_of_not_isRoot (Bool.eq_false_iff.2 (hno n hn))
  obtain ⟨m, hm, hmd⟩ := hsrc l hl
  exact ih m hm (.single ⟨l, hl, hmd, how⟩)

/-- A round releases the modules that it frees, and frees one if one is free before it. -/
lemma exists_sweep (h : Accounted p) (names : List String) :
    ∃ free, p.sweep names = (free, p.without free) ∧ free.Sublist names ∧
      (free = [] → ∀ n ∈ names, p.isRoot n = false) := by
  induction names generalizing p with
  | nil => exact ⟨[], by simp [sweep, without], .slnil, by simp⟩
  | cons name rest ih =>
    rw [sweep]
    cases hrt : p.isRoot name with
    | true =>
      obtain ⟨free, hfr, hsub, -⟩ := ih (h.without [name])
      refine ⟨name :: free, ?_, hsub.cons_cons name, by simp⟩
      simp [release_eq h, hfr, without_without]
    | false =>
      obtain ⟨free, hfr, hsub, hno⟩ := ih h
      refine ⟨free, by simpa using hfr, hsub.cons name, fun hnil n hn => ?_⟩
      rcases mem_cons.1 hn with rfl | hn
      · exact hrt
      · exact hno hnil n hn

lemma waiting_eq_nil (h : ∀ l ∈ p.waiting, ∃ n ∈ ([] : List String), l.source.owner = .module n) : p.waiting = [] :=
  eq_nil_iff_forall_not_mem.2 fun l hl => by
    obtain ⟨n, hn, -⟩ := h l hl
    cases hn

/-- Rounds over modules that all waiting links leave put each of them in order once, and then no
link waits. -/
lemma exists_rounds (fuel : Nat) (hac : Accounted p) (hacy : Acyclic p.waiting)
    (hsrc : ∀ l ∈ p.waiting, ∃ n ∈ remaining, l.source.owner = .module n) (hnd : remaining.Nodup)
    (hfl : remaining.length ≤ fuel) : ∃ order, rounds fuel p remaining = some (order, { p with waiting := [] }) ∧
      order.Perm remaining := by
  induction fuel generalizing p remaining with
  | zero =>
    obtain rfl := length_eq_zero_iff.1 (Nat.le_zero.1 hfl)
    exact ⟨[], by rw [rounds, ← waiting_eq_nil hsrc], .refl _⟩
  | succ fuel ih =>
    by_cases hne : remaining = []
    · subst hne
      exact ⟨[], by rw [rounds, ← waiting_eq_nil hsrc], .refl _⟩
    obtain ⟨free, hfr, hsub, hno⟩ := exists_sweep hac remaining
    obtain ⟨root, hrt, his⟩ := exists_isRoot hacy hsrc hne
    obtain ⟨first, hfst⟩ : ∃ n, n ∈ free := by
      refine exists_mem_of_ne_nil _ fun hnil => ?_
      rw [hno hnil root hrt] at his
      cases his
    have hlt : ∀ l ∈ (p.without free).waiting,
        ∃ n ∈ remaining.filter (!free.contains ·), l.source.owner = .module n := by
      intro l hl
      obtain ⟨hl, hnot⟩ := mem_waiting_without.1 hl
      obtain ⟨n, hn, how⟩ := hsrc l hl
      refine ⟨n, mem_filter.2 ⟨hn, ?_⟩, how⟩
      simpa using (hnot n · how)
    have hsh : (remaining.filter (!free.contains ·)).length < remaining.length := by
      refine length_filter_lt_length_iff_exists.2 ⟨first, hsub.subset hfst, ?_⟩
      simpa using hfst
    obtain ⟨later, hrn, hpm⟩ := ih (hac.without free)
      (hacy.mono fun l hl => (mem_waiting_without.1 hl).1) hlt (hnd.filter _) (by omega)
    refine ⟨free ++ later, ?_, ?_⟩
    · rw [rounds]
      · simp only [hfr, hrn]
        rfl
      · exact hne
    · have hfrd : free.Perm (remaining.filter free.contains) := by
        refine (perm_ext_iff_of_nodup (hnd.sublist hsub) (hnd.filter _)).2 fun n => ?_
        simpa using (hsub.subset ·)
      exact (hfrd.append hpm).trans (filter_append_perm _ remaining)

lemma stage?_eq_some {name : String} (h : name ∈ p.stages.map Stage.name) :
    ∃ s, p.stage? name = some s ∧ s.name = name := by
  obtain ⟨s, hs⟩ := Option.isSome_iff_exists.1 (show (p.stage? name).isSome by simpa [stage?] using h)
  exact ⟨s, hs, by simpa using find?_some hs⟩

/-! ### Sources come first

A module is put in order only once none of its inputs awaits a source, so that every module comes
after those that feed it. The modules are numbered in that order, and once no link waits, putting
them in order again changes nothing.
-/

variable {order : List String} {start : Nat} {name : String} {stages : List Stage}

/-! ### Order -/

/-- Before each module of an order stand all those whose links its inputs await. -/
def SourcesFirst (p : Pipeline) (order : List String) : Prop :=
  ∀ earlier m later, order = earlier ++ m :: later → ∀ i ∈ p.terminalsOf (.module m) .input,
    ∀ source ∈ p.parentsOf i.terminal, ∃ n ∈ earlier, source.owner = .module n

lemma sourcesFirst_nil : SourcesFirst p [] := by
  intro earlier m later h
  simp at h

lemma sourcesFirst_of_isRoot (h : p.isRoot name) : SourcesFirst p [name] := by
  intro earlier m later heq i hi source hsrc
  obtain rfl : m = name := mem_singleton.1 (heq ▸ by simp)
  rw [isRoot, all_eq_true] at h
  rw [isEmpty_iff.1 (h i hi)] at hsrc
  exact absurd hsrc not_mem_nil

/-- What an input awaits still waits for it once some modules were released, unless one of these is
its owner. -/
lemma mem_parentsOf_without (names : List String) {terminal : Terminal} (h : source ∈ p.parentsOf terminal) :
    (∃ n ∈ names, source.owner = .module n) ∨ source ∈ (p.without names).parentsOf terminal := by
  obtain ⟨l, hl, htgt, rfl⟩ := mem_parentsOf.1 h
  by_cases hrl : ∃ n ∈ names, l.source.owner = .module n
  · exact .inl hrl
  · refine .inr (mem_parentsOf.2 ⟨l, mem_waiting_without.2 ⟨hl, fun n hn how => ?_⟩, htgt, rfl⟩)
    exact hrl ⟨n, hn, how⟩

lemma SourcesFirst.append {rest : List String} (h : SourcesFirst p order)
    (hr : SourcesFirst (p.without order) rest) : SourcesFirst p (order ++ rest) := by
  intro earlier m later heq i hi source hsrc
  rcases append_eq_append_iff.1 heq with ⟨between, rfl, hsp⟩ | ⟨between, rfl, hsp⟩
  · rcases mem_parentsOf_without order hsrc with ⟨n, hn, how⟩ | hsrc
    · exact ⟨n, mem_append_left _ hn, how⟩
    · obtain ⟨n, hn, how⟩ := hr between m later hsp i hi source hsrc
      exact ⟨n, mem_append_right _ hn, how⟩
  · rcases between with _ | ⟨first, between⟩
    · rcases mem_parentsOf_without (earlier ++ []) hsrc with ⟨n, hn, how⟩ | hsrc
      · exact ⟨n, by simpa using hn, how⟩
      · obtain ⟨n, hn, -⟩ := hr [] m later (by simpa using hsp.symm) i hi source hsrc
        cases hn
    · obtain ⟨rfl, -⟩ := cons.inj hsp
      exact h earlier m between rfl i hi source hsrc

lemma sourcesFirst_sweep (h : Accounted p) (names : List String) : SourcesFirst p (p.sweep names).1 := by
  induction names generalizing p with
  | nil => exact sourcesFirst_nil
  | cons name rest ih =>
    rw [sweep]
    cases hrt : p.isRoot name with
    | true =>
      rw [release_eq h]
      exact (sourcesFirst_of_isRoot hrt).append (ih (h.without [name]))
    | false => exact ih h

lemma sourcesFirst_rounds {fuel : Nat} {q : Pipeline} (hac : Accounted p)
    (h : rounds fuel p remaining = some (order, q)) : SourcesFirst p order := by
  induction fuel generalizing p remaining order with
  | zero =>
    cases remaining with
    | nil =>
      obtain ⟨rfl, -⟩ := Prod.mk.inj (Option.some.inj h)
      exact sourcesFirst_nil
    | cons name rest => cases h
  | succ fuel ih =>
    by_cases hne : remaining = []
    · subst hne
      obtain ⟨rfl, -⟩ := Prod.mk.inj (Option.some.inj h)
      exact sourcesFirst_nil
    obtain ⟨free, hfr, -⟩ := exists_sweep hac remaining
    have hfst := sourcesFirst_sweep hac remaining
    rw [rounds] at h
    · simp only [hfr] at h hfst
      obtain ⟨⟨later, q'⟩, hlt, heq⟩ := Option.bind_eq_some_iff.1 h
      obtain ⟨rfl, rfl⟩ := Prod.mk.inj (Option.some.inj heq)
      exact hfst.append (ih (hac.without free) hlt)
    · exact hne

/-! ### Numbers -/

/-- Modules of a pipeline in a given order, each with its place in it as its index. -/
def numbered (p : Pipeline) (order : List String) : List Stage :=
  order.zipIdx.filterMap fun e => (p.stage? e.1).map fun s => { s with index := some e.2 }

/-- The modules of a pipeline have their places in an order as their indices. -/
def Numbered (stages : List Stage) (order : List String) (start : Nat) : Prop :=
  stages.map (fun s => (s.name, s.index)) = (order.zipIdx start).map fun e => (e.1, some e.2)

lemma numbered_numbered (h : ∀ n ∈ order, n ∈ p.stages.map Stage.name) : Numbered (p.numbered order) order 0 := by
  suffices hst : ∀ start, Numbered ((order.zipIdx start).filterMap fun e =>
      (p.stage? e.1).map fun s => { s with index := some e.2 }) order start from hst 0
  induction order with
  | nil => exact fun _ => rfl
  | cons name rest ih =>
    intro start
    obtain ⟨s, hs, hnm⟩ := stage?_eq_some (h name mem_cons_self)
    have hr := ih (fun n hn => h n (mem_cons_of_mem name hn)) (start + 1)
    rw [Numbered] at hr
    simp [Numbered, zipIdx_cons, hs, hnm, hr]

lemma Numbered.map_name (h : Numbered stages order start) : stages.map Stage.name = order := by
  have hns := congrArg (map Prod.fst) h
  simpa [Function.comp_def] using hns

lemma Numbered.find?_eq_some (h : Numbered stages order start) (hnm : name ∈ order) :
    ∃ s, (stages.find? (·.name == name)) = some s ∧ s.index = some (start + order.idxOf name) := by
  induction order generalizing stages start with
  | nil => cases hnm
  | cons first rest ih =>
    cases stages with
    | nil => cases h
    | cons s stages =>
      obtain ⟨hs, hr⟩ := cons.inj h
      obtain ⟨hfst, hidx⟩ := Prod.mk.inj hs
      by_cases heq : first = name
      · subst heq
        exact ⟨s, by simp [hfst], by simpa using hidx⟩
      · obtain ⟨t, ht, hpl⟩ := ih hr ((mem_cons.1 hnm).resolve_left (Ne.symm heq))
        refine ⟨t, ?_, ?_⟩
        · rw [find?_cons_of_neg (by simpa [hfst] using heq), ht]
        · rw [hpl, idxOf_cons_ne _ heq]
          congr 1
          omega

/-- Where the links that wait leave modules and form no cycle, the modules are put in an order in
which each comes after those that feed it, and numbered in that order. -/
lemma exists_order (hac : Accounted p) (hacy : Acyclic p.waiting)
    (hsrc : ∀ l ∈ p.waiting, ∃ n ∈ p.stages.map Stage.name, l.source.owner = .module n)
    (hnd : (p.stages.map Stage.name).Nodup) :
    ∃ order, p.sorted? = some { p with stages := p.numbered order, waiting := [] } ∧
      order.Perm (p.stages.map Stage.name) ∧ SourcesFirst p order := by
  obtain ⟨order, hrn, hpm⟩ := exists_rounds _ hac hacy hsrc hnd (le_refl _)
  exact ⟨order, by rw [sorted?, hrn]; rfl, hpm, sourcesFirst_rounds hac hrn⟩

/-! ### No link waits -/

lemma sweep_of_waiting_eq_nil (h : p.waiting = []) (names : List String) : p.sweep names = (names, p) := by
  have hfr : ∀ name, p.isRoot name := by simp [isRoot, parentsOf, h]
  have hrl : ∀ name, p.release name = p := by
    intro name
    rw [release_eq (by simp [Accounted, h]), without, h, filter_nil, ← h]
  induction names with
  | nil => rfl
  | cons name rest ih => simp [sweep, hfr, hrl, ih]

lemma find?_name_of_mem (hnd : (stages.map Stage.name).Nodup) {s : Stage} (hs : s ∈ stages) :
    (stages.find? (·.name == s.name)) = some s := by
  induction stages with
  | nil => cases hs
  | cons t stages ih =>
    rw [map_cons, nodup_cons] at hnd
    rcases mem_cons.1 hs with rfl | hs
    · simp
    · have hne : t.name ≠ s.name := fun heq => hnd.1 (heq ▸ mem_map_of_mem hs)
      rw [find?_cons_of_neg (by simpa using hne), ih hnd.2 hs]

lemma numbered_eq_self (hnd : order.Nodup) (h : Numbered p.stages order 0) : p.numbered order = p.stages := by
  let found (e : String × Option Nat) := (p.stage? e.1).map fun s => { s with index := e.2 }
  have hfn : ∀ s ∈ p.stages, found (s.name, s.index) = some s := by
    intro s hs
    simp only [found, stage?, find?_name_of_mem (h.map_name ▸ hnd) hs, Option.map_some]
  calc p.numbered order = (order.zipIdx.map fun e => (e.1, some e.2)).filterMap found := by
        rw [filterMap_map]
        rfl
    _ = p.stages.filterMap fun s => found _ := by
        rw [← h, filterMap_map]
        rfl
    _ = p.stages := (filterMap_congr hfn).trans filterMap_some

lemma sorted?_of_numbered (hwt : p.waiting = []) (hnd : order.Nodup) (h : Numbered p.stages order 0) :
    p.sorted? = some p := by
  have hrn : rounds order.length p order = some (order, p) := by
    cases hlen : order.length with
    | zero => rw [length_eq_zero_iff.1 hlen, rounds]
    | succ fuel =>
      have hno : (order.filter (!order.contains ·)) = [] := by simp
      rw [rounds]
      · simp only [sweep_of_waiting_eq_nil hwt, hno, rounds]
        exact congrArg (fun names => some (names, p)) (append_nil order)
      · rintro rfl
        cases hlen
  rw [sorted?, h.map_name, hrn]
  exact congrArg some (congrArg (fun stages => { p with stages }) (numbered_eq_self hnd h))

end TensorToolchain.Pipeline
