import TensorToolchain.Proofs.Faults
import TensorToolchain.Proofs.Keyed
import TensorToolchain.Script.Session

/-!
# Scopes

Variables keep two things in step: the frames and the stacks of values of the names. Over any steps
a name has as many values as frames hold it, so that leaving a scope uncovers what every name had
when the scope was entered.
-/

namespace TensorToolchain.Script.Variables

open List Prod Variables

variable {v w base : Variables} {name : String} {value : Entry} {allow : Bool}

lemma stack_setStack (v : Variables) (name other : String) (xs : List Entry) :
    (v.setStack name xs).stack other = if other = name then xs else v.stack other := by
  rw [stack, setStack, Keyed.lookup_cons_filter]
  by_cases h : other = name <;> simp [h, stack]

lemma nodup_setStack (h : (v.values.map fst).Nodup) (name : String) (xs : List Entry) :
    ((v.setStack name xs).values.map fst).Nodup := by
  rw [setStack, map_cons, nodup_cons]
  exact ⟨by simp, h.sublist (filter_sublist.map _)⟩

lemma map_fst_bindings_sublist (v : Variables) : (v.bindings.map fst).Sublist (v.values.map fst) := by
  rw [bindings]
  induction v.values with
  | nil => exact .slnil
  | cons e values ih =>
    obtain ⟨name, xs⟩ := e
    cases xs with
    | nil => exact ih.cons name
    | cons x xs => exact ih.cons_cons name

lemma lookup_bindings (h : (v.values.map fst).Nodup) (name : String) : v.bindings.lookup name = v.get? name := by
  suffices hvs : ∀ values : List (String × List Entry), (values.map fst).Nodup →
      (values.filterMap fun e => e.2.head?.map fun x => (e.1, x)).lookup name =
        ((values.lookup name).getD []).head? from hvs v.values h
  intro values h
  induction values with
  | nil => rfl
  | cons e values ih =>
    obtain ⟨hnew, hnd⟩ := nodup_cons.1 h
    obtain ⟨other, xs⟩ := e
    by_cases hnm : name = other
    · subst hnm
      cases xs with
      | cons x xs => simp
      | nil =>
        have hno : values.lookup name = none := by
          rw [lookup_eq_none_iff]
          intro e he
          simpa using fun heq : name = e.1 => hnew (mem_map.2 ⟨e, he, heq.symm⟩)
        simpa [hno] using ih hnd
    · have hne : (name == other) = false := by simpa using hnm
      rw [lookup_cons, hne, ← ih hnd]
      cases xs with
      | nil => rfl
      | cons x xs =>
        change lookup name ((other, x) :: _) = _
        rw [lookup_cons, hne]

/-! ### All that a definition can do -/

/-- All that a definition that is made can do: nothing, if the name has the value already; else the
value takes the place of the one that the innermost scope gave the name, or comes on top of those of
outer scopes. -/
lemma of_add_eq_ok (h : v.add name value allow = .ok w) : v.alreadyHas name value = .ok true ∧ w = v ∨
    v.alreadyHas name value = .ok false ∧ ∃ frame frames, v.frames = frame :: frames ∧
      (name ∈ frame ∧ w = v.setStack name (value :: (v.stack name).tail) ∨
        name ∉ frame ∧ w = { v with frames := (name :: frame) :: frames }.setStack name (value :: v.stack name)) := by
  obtain ⟨has, hhas, h⟩ := bind_eq_ok.1 h
  cases has with
  | true => exact .inl ⟨hhas, (Except.ok.inj h).symm⟩
  | false =>
    refine .inr ⟨hhas, ?_⟩
    cases hframes : v.frames with
    | nil => cases (by simpa [hframes] using h : fail .badIndex = .ok w)
    | cons frame frames =>
      simp only [hframes, Bool.false_eq_true, if_false, contains_iff_mem] at h
      refine ⟨frame, frames, rfl, ?_⟩
      split at h
      · rename_i hname
        cases allow with
        | true => exact .inl ⟨hname, (Except.ok.inj h).symm⟩
        | false => cases h
      · rename_i hname
        exact .inr ⟨hname, (Except.ok.inj h).symm⟩

/-- A definition in a scope is refused only because the scope holds the name, or because the value
cannot be compared with the one that the name has. -/
lemma of_add_eq_error {f : Fault} (h : v.add name value allow = .error f) : v.alreadyHas name value = .error f ∨
    v.alreadyHas name value = .ok false ∧
      ∀ frame ∈ v.frames.head?, name ∈ frame ∧ allow = false ∧ f = alreadyDefined name := by
  rw [add] at h
  cases hhas : v.alreadyHas name value with
  | error f' =>
    rw [hhas, error_bind] at h
    exact .inl (congrArg _ (Except.error.inj h))
  | ok has =>
    rw [hhas, ok_bind] at h
    cases has with
    | true => cases h
    | false =>
      refine .inr ⟨rfl, fun frame hframe => ?_⟩
      obtain ⟨frames, hframes⟩ := head?_eq_some_iff.1 hframe
      simp only [hframes, Bool.false_eq_true, if_false, contains_iff_mem] at h
      split at h
      · rename_i hname
        cases allow with
        | true => cases h
        | false => exact ⟨hname, rfl, (Except.error.inj h).symm⟩
      · cases h

/-! ### Variables above others -/

/-- Variables that came from others by entering scopes that are still open: their frames stand
before those of the others, and the values that their names were given there on top of the values of
the others. -/
structure Above (base : Variables) (frames : List (List String)) (w : Variables) : Prop where
  frames_eq : w.frames = frames ++ base.frames
  nodup : ∀ frame ∈ frames, frame.Nodup
  stack_eq : ∀ name, ∃ top, w.stack name = top ++ base.stack name ∧ top.length = frames.countP (name ∈ ·)
  keys_nodup : (w.values.map fst).Nodup

lemma above_refl (h : (v.values.map fst).Nodup) : Above v [] v where
  frames_eq := rfl
  nodup := by simp
  stack_eq _ := ⟨[], rfl, rfl⟩
  keys_nodup := h

variable {frames : List (List String)} {frame : List String}

lemma Above.push (h : Above base frames w) : Above base ([] :: frames) w.push where
  frames_eq := congrArg ([] :: ·) h.frames_eq
  nodup := by simpa using h.nodup
  stack_eq name := by
    obtain ⟨top, htop, hlen⟩ := h.stack_eq name
    exact ⟨top, htop, by simpa using hlen⟩
  keys_nodup := h.keys_nodup

lemma Above.replace (h : Above base (frame :: frames) w) (hnm : name ∈ frame) (value : Entry) :
    Above base (frame :: frames) (w.setStack name (value :: (w.stack name).tail)) where
  __ := h
  stack_eq other := by
    rw [stack_setStack]
    obtain ⟨top, htop, hlen⟩ := h.stack_eq other
    split_ifs with heq
    · subst heq
      rw [countP_cons_of_pos (by simpa using hnm)] at hlen
      cases top with
      | nil => cases hlen
      | cons old top => exact ⟨value :: top, by rw [htop]; rfl, by simpa [hnm] using hlen⟩
    · exact ⟨top, htop, hlen⟩
  keys_nodup := nodup_setStack h.keys_nodup _ _

lemma Above.cover (h : Above base (frame :: frames) w) (hnm : name ∉ frame) (value : Entry) :
    Above base ((name :: frame) :: frames)
      ({ w with frames := (name :: frame) :: (frames ++ base.frames) }.setStack name (value :: w.stack name)) where
  frames_eq := rfl
  nodup := by
    have hnd := h.nodup
    rw [forall_mem_cons] at hnd ⊢
    exact ⟨nodup_cons.2 ⟨hnm, hnd.1⟩, hnd.2⟩
  stack_eq other := by
    rw [stack_setStack]
    obtain ⟨top, htop, hlen⟩ := h.stack_eq other
    split_ifs with heq
    · subst heq
      rw [countP_cons_of_neg (by simpa using hnm)] at hlen
      refine ⟨value :: top, congrArg (value :: ·) htop, ?_⟩
      rw [countP_cons_of_pos (by simp), length_cons, hlen]
    · exact ⟨top, htop, by simpa [countP_cons, heq] using hlen⟩
  keys_nodup := nodup_setStack h.keys_nodup _ _

lemma stack_foldl_tail (frame : List String) (hnd : frame.Nodup) (v : Variables) (other : String) :
    (frame.foldl (fun w name => w.setStack name (w.stack name).tail) v).stack other =
      if other ∈ frame then (v.stack other).tail else v.stack other := by
  induction frame generalizing v with
  | nil => simp
  | cons name frame ih =>
    obtain ⟨hnm, hnd⟩ := nodup_cons.1 hnd
    rw [foldl_cons, ih hnd, stack_setStack]
    by_cases heq : other = name
    · subst heq
      simp [hnm]
    · simp [heq]

lemma foldl_tail_keeps (frame : List String) (v : Variables) (h : (v.values.map fst).Nodup) :
    (frame.foldl (fun w name => w.setStack name (w.stack name).tail) v).frames = v.frames ∧
      ((frame.foldl (fun w name => w.setStack name (w.stack name).tail) v).values.map fst).Nodup := by
  induction frame generalizing v with
  | nil => exact ⟨rfl, h⟩
  | cons name frame ih => exact ih _ (nodup_setStack h _ _)

lemma Above.pop (h : Above base (frame :: frames) v) : ∃ w, v.pop = .ok w ∧ Above base frames w := by
  have hfr : v.frames = frame :: (frames ++ base.frames) := h.frames_eq
  obtain ⟨hkp, hks⟩ := foldl_tail_keeps frame { v with frames := frames ++ base.frames } h.keys_nodup
  refine ⟨_, by rw [Variables.pop, hfr], ?_⟩
  exact
    { frames_eq := hkp
      nodup := (forall_mem_cons.1 h.nodup).2
      stack_eq := fun name => by
        rw [stack_foldl_tail frame (forall_mem_cons.1 h.nodup).1]
        obtain ⟨top, htop, hlen⟩ := h.stack_eq name
        split_ifs with hnm
        · rw [countP_cons_of_pos (by simpa using hnm)] at hlen
          cases top with
          | nil => cases hlen
          | cons old top => exact ⟨top, congrArg tail htop, Nat.succ.inj hlen⟩
        · rw [countP_cons_of_neg (by simpa using hnm)] at hlen
          exact ⟨top, htop, hlen⟩
      keys_nodup := hks }

def Within (base : Variables) (depth : Nat) (w : Variables) : Prop :=
  ∃ frames, frames.length = depth ∧ Above base frames w

variable {depth : Nat}

section

variable (h : Within base depth v) (hop : depth = 0 → base.frames = [])
include h hop

/-- A definition changes nothing below the scopes that are open above others. -/
lemma Within.add (hadd : v.add name value allow = .ok w) : Within base depth w := by
  obtain ⟨frames, rfl, h⟩ := h
  rcases of_add_eq_ok hadd with ⟨-, rfl⟩ | ⟨-, frame, rest, hfr, hw⟩
  · exact ⟨frames, rfl, h⟩
  · rw [h.frames_eq] at hfr
    cases frames with
    | nil =>
      rw [hop rfl] at hfr
      cases hfr
    | cons frame' frames =>
      obtain ⟨rfl, rfl⟩ := cons.inj hfr
      rcases hw with ⟨hnm, rfl⟩ | ⟨hnm, rfl⟩
      · exact ⟨frame' :: frames, rfl, h.replace hnm value⟩
      · exact ⟨(name :: frame') :: frames, rfl, h.cover hnm value⟩

/-! ### Steps and runs -/

lemma Within.addAll (allow : Bool) (bindings : List (String × Value)) :
    Within base depth (v.addAll allow bindings).1 := by
  induction bindings generalizing v with
  | nil => exact h
  | cons b rest ih =>
    rw [Variables.addAll]
    cases hadd : v.add b.1 b.2 allow with
    | error f => exact h
    | ok w => exact ih (h.add hop hadd)

lemma Within.assign (target : Target) (value : Value) (allow : Bool) :
    Within base depth (v.assign target value allow).1 := by
  rw [Variables.assign]
  split
  · exact h
  · exact h
  · split
    · exact h
    · exact h.addAll hop allow _

def after (v : Variables) (steps : List Step) : Variables := steps.foldl (fun w s => (w.step s).1) v

/-- A step that neither enters nor leaves a scope changes nothing below the scopes that are open
above others. -/
lemma Within.step {s : Step} (hps : s ≠ .push) (hpop : s ≠ .pop) : Within base depth (v.step s).1 := by
  cases s with
  | assign target value allow =>
    have haft := h.assign hop target value allow
    rw [Variables.step]
    split <;> simp_all
  | define name value allow =>
    rw [Variables.step]
    cases hadd : v.add name value allow with
    | ok w => exact h.add hop hadd
    | error f => exact h
  | push => exact absurd rfl hps
  | pop => exact absurd rfl hpop
  | evaluate e =>
    rw [Variables.step]
    split <;> exact h

end

lemma after_append (v : Variables) (steps rest : List Step) : v.after (steps ++ rest) = (v.after steps).after rest :=
  foldl_append

/-- Steps in which every scope that is entered is left again. -/
inductive Balanced : List Step → Prop where
  | nil : Balanced []
  | quiet {s : Step} {rest : List Step} (hpush : s ≠ .push) (hpop : s ≠ .pop) (h : Balanced rest) : Balanced (s :: rest)
  | scope {inner rest : List Step} (h : Balanced inner) (hrest : Balanced rest) :
      Balanced (.push :: (inner ++ .pop :: rest))

lemma Above.step_pop (h : Above base (frame :: frames) v) : Above base frames (v.step .pop).1 := by
  obtain ⟨w, hpop, hw⟩ := h.pop
  rw [Variables.step, hpop]
  exact hw

/-- Steps that leave every scope that they enter change nothing below the scopes that were open
before them. -/
lemma Within.balanced {steps : List Step} (hst : Balanced steps) (h : Within base depth v) (hne : depth ≠ 0) :
    Within base depth (v.after steps) := by
  induction hst generalizing v depth with
  | nil => exact h
  | quiet hps hpop _ ih => exact ih (h.step (absurd · hne) hps hpop) hne
  | @scope inner rest _ _ ih ihrest =>
    obtain ⟨frames, rfl, h⟩ := h
    obtain ⟨inside, hlen, hin⟩ := ih ⟨_, rfl, h.push⟩ (Nat.succ_ne_zero _)
    cases inside with
    | nil => cases hlen
    | cons frame inside =>
      have haft : v.after (.push :: (inner ++ .pop :: rest)) = (((v.push.after inner).step .pop).1).after rest :=
        after_append v.push inner _
      rw [haft]
      exact ihrest ⟨inside, Nat.succ.inj hlen, hin.step_pop⟩ hne

/-- Over any steps a name has as many values as there are frames that hold it. -/
lemma above_after (steps : List Step) : Above {} (after {} steps).frames (after {} steps) := by
  suffices hrun : ∀ v, Above {} v.frames v → Above {} (v.after steps).frames (v.after steps) from
    hrun {} (above_refl nodup_nil)
  induction steps with
  | nil => exact fun v h => h
  | cons s steps ih =>
    intro v h
    refine ih (v.step s).1 ?_
    have hfr : ∀ {frames w}, Above {} frames w → Above {} w.frames w := fun h' => by
      rw [h'.frames_eq, append_nil]
      exact h'
    by_cases hps : s = .push
    · subst hps
      exact hfr h.push
    by_cases hpop : s = .pop
    · subst hpop
      cases hnil : v.frames with
      | nil =>
        rw [step, pop, hnil]
        exact h
      | cons frame frames =>
        rw [hnil] at h
        exact hfr h.step_pop
    · obtain ⟨frames', -, hst⟩ := Within.step ⟨_, rfl, h⟩ (fun _ => rfl) hps hpop
      exact hfr hst

/-! ### What is bound -/

lemma Above.lookup_eq (h : Above v [] w) (hv : (v.values.map fst).Nodup) (name : String) :
    w.bindings.lookup name = v.bindings.lookup name := by
  obtain ⟨top, htop, hlen⟩ := h.stack_eq name
  rw [length_eq_zero_iff.1 hlen, nil_append] at htop
  rw [lookup_bindings h.keys_nodup, lookup_bindings hv, get?, get?, htop]

/-- A definition binds its name to the new value, unless the name has that already. -/
lemma lookup_add (hv : (v.values.map fst).Nodup) (h : v.add name value allow = .ok w) (other : String) :
    w.bindings.lookup other =
      if other = name ∧ v.alreadyHas name value = .ok false then some value else v.bindings.lookup other := by
  have hset : ∀ u : Variables, u.values = v.values → ∀ xs, v.alreadyHas name value = .ok false →
      (u.setStack name (value :: xs)).bindings.lookup other =
        if other = name ∧ v.alreadyHas name value = .ok false then some value else v.bindings.lookup other := by
    intro u hu xs hnot
    rw [lookup_bindings (nodup_setStack (hu ▸ hv) _ _), lookup_bindings hv, get?, stack_setStack, stack, hu]
    by_cases heq : other = name <;> simp [heq, hnot, get?, stack]
  rcases of_add_eq_ok h with ⟨hhas, rfl⟩ | ⟨hnot, frame, frames, -, ⟨-, rfl⟩ | ⟨-, rfl⟩⟩
  · simp [hhas]
  · exact hset v rfl _ hnot
  · exact hset { v with frames := (name :: frame) :: frames } rfl _ hnot

/-- After any steps each name has one value for each frame that holds it. A scope that is entered
can be left after steps that leave every scope that they enter, and then the frames and what each
name is bound to are as they were. A definition that is made binds its name to the new value and no
other name anew, unless it is passed over because of the value that the name has, which stays; one
that is refused changes nothing. -/
theorem scopes_restore (before : List Step) :
    let v := after {} before
    (∀ name, (v.stack name).length = v.frames.countP (name ∈ ·)) ∧
    (v.bindings.map Prod.fst).Nodup ∧
    (∀ inner, Balanced inner → ∃ w, (v.after (.push :: inner)).pop = .ok w ∧ w.frames = v.frames ∧
      ∀ name, w.bindings.lookup name = v.bindings.lookup name) ∧
    (∀ name value allow w, v.add name value allow = .ok w →
      (v.step (.define name value allow)).1 = w ∧ ∀ other, w.bindings.lookup other =
        if other = name ∧ v.alreadyHas name value = .ok false then some value else v.bindings.lookup other) ∧
    (∀ name value, v.alreadyHas name value = (v.bindings.lookup name).elim (.ok false) (passesOver · value)) ∧
    (∀ name value allow f, v.add name value allow = .error f → (v.step (.define name value allow)).1 = v ∧
      (v.alreadyHas name value = .error f ∨ v.alreadyHas name value = .ok false ∧
        ∀ frame ∈ v.frames.head?, name ∈ frame ∧ allow = false ∧ f = alreadyDefined name)) := by
  intro v
  have h : Above {} v.frames v := above_after before
  refine ⟨fun name => ?_, h.keys_nodup.sublist v.map_fst_bindings_sublist, fun inner hinner => ?_,
    fun name value allow w hadd => ?_, fun name value => ?_, fun name value allow f hadd => ?_⟩
  · obtain ⟨top, htop, hlength⟩ := h.stack_eq name
    rw [htop, ← hlength]
    exact congrArg List.length (List.append_nil top)
  · obtain ⟨frames, hlength, hafter⟩ := Within.balanced hinner ⟨_, rfl, (above_refl h.keys_nodup).push⟩ Nat.one_ne_zero
    obtain ⟨frame, rfl⟩ := List.length_eq_one_iff.1 hlength
    obtain ⟨w, hpop, hw⟩ := hafter.pop
    exact ⟨w, hpop, hw.frames_eq, hw.lookup_eq h.keys_nodup⟩
  · exact ⟨by rw [step, hadd], lookup_add h.keys_nodup hadd⟩
  · rw [lookup_bindings h.keys_nodup, alreadyHas]
    cases v.get? name <;> rfl
  · exact ⟨by rw [step, hadd], of_add_eq_error hadd⟩

/-- Two scopes, in the inner of which a name of the outer one is defined anew. -/
def hiddenName : List Step := [.push, .define "x" (.plain (.int 1)) false, .push, .define "x" (.plain (.int 2)) false]

/-- In a third scope the name is defined twice more, the second time in place of the first; leaving
it uncovers what the second scope gave the name. -/
theorem hiddenName_restored :
    Balanced [.define "x" (.plain (.int 3)) false, .define "x" (.plain (.int 4)) true] ∧
    (after {} (hiddenName ++ [.push, .define "x" (.plain (.int 3)) false, .define "x" (.plain (.int 4)) true])).bindings =
      [("x", .plain (.int 4))] ∧
    ∃ w, (((after {} hiddenName).after [.push, .define "x" (.plain (.int 3)) false, .define "x" (.plain (.int 4)) true]).pop = .ok w ∧
      w.bindings.lookup "x" = some (.plain (.int 2))) := by
  have hbalanced : Balanced [.define "x" (.plain (.int 3)) false, .define "x" (.plain (.int 4)) true] :=
    .quiet (by simp) (by simp) (.quiet (by simp) (by simp) .nil)
  obtain ⟨w, hpop, -, hlookup⟩ := (scopes_restore hiddenName).2.2.1 _ hbalanced
  exact ⟨hbalanced, rfl, w, hpop, hlookup "x"⟩

/-- A definition that is made need not bind its name to the new value: the truth value that is equal
to it stays. -/
theorem truth_value_stays :
    (∃ w, (after {} [.push, .define "x" (.plain (.bool true)) false]).add "x" (.plain (.int 1)) false = .ok w ∧
      w.bindings.lookup "x" = some (.plain (.bool true))) ∧
    Value.bool true ≠ .int 1 :=
  ⟨⟨_, rfl, rfl⟩, by simp⟩

end TensorToolchain.Script.Variables

namespace TensorToolchain.Script

open List

/-! ### Names on the left side of an assignment -/

mutual

/-- The names of a left side from left to right, with repetitions, if it is built from names by
nesting tuples and lists. -/
def Target.occurrences? : Target → Option (List String)
  | .name id => some [id]
  | .tuple ts | .list ts => occurrencesIn? ts
  | .star _ | .literal _ => none

def occurrencesIn? : List Target → Option (List String)
  | [] => some []
  | t :: ts => return (← t.occurrences?) ++ (← occurrencesIn? ts)

end

mutual

lemma names_of_occurrences : ∀ {t : Target} {xs}, t.occurrences? = some xs →
    t.names = .ok (if xs.Nodup then some xs else none)
  | .name id, _, h => by
    rw [Target.occurrences?] at h
    cases h
    simp [Target.names]
  | .tuple ts, _, h | .list ts, _, h => by
    rw [Target.occurrences?] at h
    rw [Target.names, namesOf_of_occurrences nodup_nil h, nil_append]
  | .star _, _, h | .literal _, _, h => by simp [Target.occurrences?] at h

/-- A repetition is seen in the first part that repeats a name by itself or shares one with the
parts before it. -/
lemma namesOf_of_occurrences : ∀ {ts : List Target} {seen xs}, seen.Nodup → occurrencesIn? ts = some xs →
    namesOf seen ts = .ok (if (seen ++ xs).Nodup then some (seen ++ xs) else none)
  | [], seen, _, hs, h => by
    rw [occurrencesIn?] at h
    cases h
    simp [namesOf, hs]
  | t :: ts, seen, _, hs, h => by
    simp only [occurrencesIn?, Option.bind_eq_bind, Option.bind_eq_some_iff, Option.pure_def, Option.some.injEq] at h
    obtain ⟨xs, hxs, ys, hys, rfl⟩ := h
    have hiff : (seen ++ xs).Nodup ↔ xs.Nodup ∧ ¬ xs.any seen.contains := by simp [nodup_append', hs, disjoint_right]
    rw [namesOf, names_of_occurrences hxs, ← append_assoc]
    by_cases hd : (seen ++ xs).Nodup
    · obtain ⟨hx, hno⟩ := hiff.1 hd
      simp only [hx, if_true, if_neg hno, namesOf_of_occurrences hd hys]
    · rw [if_neg (c := (seen ++ xs ++ ys).Nodup) (hd ·.of_append_left)]
      by_cases hx : xs.Nodup
      · have hany : xs.any seen.contains := not_not.1 fun h => hd (hiff.2 ⟨hx, h⟩)
        simp only [hx, if_true, if_pos hany]
      · simp only [hx, if_false]

end

/-- A left side built from names repeats one exactly if some name occurs twice in it, at whatever
depths; else its names are returned, each once. -/
theorem names_of_repeated_or_distinct (t : Target) (xs : List String) (ht : t.occurrences? = some xs) :
    ((∃ x, 2 ≤ xs.count x) → t.names = .ok none) ∧
    ((¬ ∃ x, 2 ≤ xs.count x) → ∃ names, t.names = .ok (some names) ∧ names.Nodup ∧ ∀ x, x ∈ names ↔ x ∈ xs) := by
  have hnodup : (¬ ∃ x, 2 ≤ xs.count x) ↔ xs.Nodup := by simp [nodup_iff_count_le_one]
  rw [names_of_occurrences ht, hnodup]
  exact ⟨fun h => by rw [if_neg fun hn => hnodup.2 hn h], fun h => ⟨xs, by rw [if_pos h], h, fun _ => .rfl⟩⟩

/-- A name that is repeated one level deeper. -/
theorem nested_repetition : (Target.tuple [.name "a", .list [.name "a"]]).occurrences? = some ["a", "a"] ∧
    (Target.tuple [.name "a", .list [.name "a"]]).names = .ok none := by
  have hxs : (Target.tuple [.name "a", .list [.name "a"]]).occurrences? = some ["a", "a"] := by
    simp [Target.occurrences?, occurrencesIn?]
  exact ⟨hxs, (names_of_repeated_or_distinct _ _ hxs).1 ⟨"a", by decide⟩⟩

end TensorToolchain.Script
