import Mathlib
import TensorToolchain.Fault

/-!
# Faults and steps

Rules for computations that answer or refuse: how an answer passes through a sequence of steps, and
when a step over a list answers for every item.
-/

namespace TensorToolchain

open List

variable {α β : Type}
variable {a : α} {b : β} {l seen rest : List α} {kind : FaultKind} {f : α → Except Fault β} {x : Except Fault α}

@[simp] lemma ok_bind (a : α) (f : α → Except Fault β) : (Except.ok a >>= f) = f a := rfl

@[simp] lemma error_bind (e : Fault) (f : α → Except Fault β) : (Except.error e >>= f) = .error e := rfl

@[simp] lemma pure_eq_ok (a : α) : (pure a : Except Fault α) = .ok a := rfl

@[simp] lemma orFail_some (kind : FaultKind) (a : α) : orFail kind (some a) = .ok a := rfl

@[simp] lemma require_true (kind : FaultKind) (message : String) : require true kind message = .ok () := rfl

@[simp] lemma demand_true (kind : FaultKind) : demand true kind = .ok () := rfl

lemma mapM_eq_ok {g : α → β} (h : ∀ a ∈ l, f a = .ok (g a)) : l.mapM f = .ok (l.map g) := by
  induction l with
  | nil => rfl
  | cons a l ih =>
    rw [mapM_cons, h a mem_cons_self, ih fun b hb => h b (mem_cons_of_mem a hb)]
    rfl

/-- A step over a list answers if it answers for every item, and what holds of each answer holds
item by item. -/
lemma exists_mapM_eq_ok {R : α → β → Prop} (h : ∀ a ∈ l, ∃ b, f a = .ok b ∧ R a b) :
    ∃ bs, l.mapM f = .ok bs ∧ List.Forall₂ R l bs := by
  induction l with
  | nil => exact ⟨[], rfl, .nil⟩
  | cons a l ih =>
    obtain ⟨b, hb, hR⟩ := h a mem_cons_self
    obtain ⟨bs, hbs, hall⟩ := ih fun c hc => h c (mem_cons_of_mem a hc)
    exact ⟨b :: bs, by rw [mapM_cons, hb, hbs]; rfl, .cons hR hall⟩

/-- A step over a list refuses with the fault of the first item for which it refuses. -/
lemma mapM_eq_error {e : Fault} (hsn : ∀ b ∈ seen, ∃ c, f b = .ok c) (h : f a = .error e) :
    (seen ++ a :: rest).mapM f = .error e := by
  induction seen with
  | nil => rw [nil_append, mapM_cons, h, error_bind]
  | cons b seen ih =>
    obtain ⟨c, hc⟩ := hsn b mem_cons_self
    rw [cons_append, mapM_cons, hc, ok_bind, ih fun b hb => hsn b (mem_cons_of_mem _ hb), error_bind]

/-- Steps over a list answer if each of them answers and hands on what the next one needs. -/
lemma foldlM_eq_ok {f : β → α → Except Fault β} (P : List α → β → Prop) (hst : P [] b)
    (hstp : ∀ seen a rest c, l = seen ++ a :: rest → P seen c → ∃ d, f c a = .ok d ∧ P (seen ++ [a]) d) :
    ∃ d, l.foldlM f b = .ok d ∧ P l d := by
  suffices hr : ∀ rest seen c, l = seen ++ rest → P seen c → ∃ d, rest.foldlM f c = .ok d ∧ P l d from hr l [] b rfl hst
  intro rest
  induction rest with
  | nil =>
    intro seen c hl hc
    rw [append_nil] at hl
    exact ⟨c, rfl, hl ▸ hc⟩
  | cons a rest ih =>
    intro seen c hl hc
    obtain ⟨d, hd, hP⟩ := hstp seen a rest c hl hc
    obtain ⟨e, he, hPe⟩ := ih _ d (by rw [hl, append_cons]) hP
    exact ⟨e, by rw [foldlM_cons, hd, ok_bind, he], hPe⟩

/-- In a list without repetition no item stands among those before it. -/
lemma notMem_seen (hnd : l.Nodup) (hsp : l = seen ++ a :: rest) : a ∉ seen := by
  subst hsp
  exact ((nodup_append.1 hnd).2.2 a · a mem_cons_self rfl)

lemma bind_eq_ok : x >>= f = .ok b ↔ ∃ a, x = .ok a ∧ f a = .ok b := by
  cases x with
  | ok a => simp
  | error e => simp

lemma bind₂_eq_ok {γ : Type} {y : α → Except Fault γ} {g : α → γ → Except Fault β} :
    (x >>= fun a => y a >>= g a) = .ok b ↔ ∃ a, x = .ok a ∧ ∃ c, y a = .ok c ∧ g a c = .ok b := by
  simp only [bind_eq_ok]

lemma orFail_eq_ok {o : Option α} : orFail kind o = .ok a ↔ o = some a := by
  cases o with
  | none => exact ⟨nofun, nofun⟩
  | some b => simp

lemma of_demand_eq_ok {check : Bool} {u : Unit} (h : demand check kind = .ok u) : check := by
  cases check with
  | true => rfl
  | false => cases h

/-- What every step that answers hands on holds after all steps over a list, if they answer. -/
lemma of_foldlM_eq_ok {f : β → α → Except Fault β} {d : β} (P : List α → β → Prop)
    (h : l.foldlM f b = .ok d) (hst : P [] b)
    (hstp : ∀ seen a rest c c', l = seen ++ a :: rest → P seen c → f c a = .ok c' → P (seen ++ [a]) c') : P l d := by
  suffices hr : ∀ rest seen c, l = seen ++ rest → P seen c → rest.foldlM f c = .ok d → P l d from hr l [] b rfl hst h
  intro rest
  induction rest with
  | nil =>
    intro seen c hl hc hd
    rw [append_nil] at hl
    obtain rfl := Except.ok.inj hd
    exact hl ▸ hc
  | cons a rest ih =>
    intro seen c hl hc hd
    obtain ⟨c', hc', hd⟩ := bind_eq_ok.1 hd
    exact ih _ c' (by rw [hl, append_cons]) (hstp seen a rest c c' hl hc hc') hd

/-! ### Lists with one more item -/

lemma mem_snoc {b : α} : a ∈ l ++ [b] ↔ a ∈ l ∨ a = b := by simp

lemma nodup_snoc (h : l.Nodup) (ha : a ∉ l) : (l ++ [a]).Nodup := by
  rw [← concat_eq_append]
  exact h.concat ha

/-! ### Steps on a state

Rules for steps that change a state and may be refused, where a refused step keeps what it did
before. `Meets x pre post` says how `x` answers from the states of which `pre` holds, and in which
state it leaves off; the rules follow how a step is composed.
-/

variable {σ ε : Type}
variable {pre' pre : σ → Prop} {post : α → σ → Prop} {mid : Except ε α → σ → Prop}
  {x : ExceptT ε (StateM σ) α} {f : α → ExceptT ε (StateM σ) β}

/-- A sequence goes on with its second part from where the first leaves off, and is refused where
the first is. -/
lemma step_bind_run (x : ExceptT ε (StateM σ) α) (f : α → ExceptT ε (StateM σ) β) (s : σ) : (x >>= f).run.run s =
      match x.run.run s with
      | (.ok a, s') => (f a).run.run s'
      | (.error e, s') => (.error e, s') := by
  change (match x.run.run s with
    | (r, s') => (ExceptT.bindCont f r).run s') = _
  cases x.run.run s with
  | mk r s' => cases r <;> rfl

lemma exists_of_step_bind_run {s t : σ} (h : (x >>= f).run.run s = (.ok b, t)) :
    ∃ a u, x.run.run s = (.ok a, u) ∧ (f a).run.run u = (.ok b, t) := by
  rw [step_bind_run] at h
  rcases hrun : x.run.run s with ⟨r, u⟩
  rw [hrun] at h
  cases r with
  | ok a => exact ⟨a, u, rfl, h⟩
  | error e => cases h

lemma step_get_bind_run (f : σ → ExceptT ε (StateM σ) α) (s : σ) : (get >>= f).run.run s = (f s).run.run s := rfl

lemma step_modify_bind_run (g : σ → σ) (f : PUnit → ExceptT ε (StateM σ) α) (s : σ) :
    (modify g >>= f).run.run s = (f ⟨⟩).run.run (g s) := rfl

/-- A step that is caught goes on from where it was refused. -/
lemma step_tryCatch_run (x : ExceptT ε (StateM σ) α) (h : ε → ExceptT ε (StateM σ) α) (s : σ) :
    (tryCatch x h).run.run s = match x.run.run s with
      | (.ok a, s') => (.ok a, s')
      | (.error e, s') => (h e).run.run s' := by
  change StateT.run (ExceptT.tryCatch x h).run s = _
  rw [ExceptT.tryCatch, ExceptT.run_mk, StateT.run_bind]
  change bind (x.run.run s) _ = _
  generalize x.run.run s = p
  obtain ⟨r, s'⟩ := p
  cases r <;> rfl

/-- From every state of which `pre` holds, the answer of a step and the state after it are as `post`
says. -/
def Meets (x : ExceptT ε (StateM σ) α) (pre : σ → Prop) (post : Except ε α → σ → Prop) : Prop :=
  ∀ s, pre s → post (x.run.run s).1 (x.run.run s).2

namespace Meets

variable {x : ExceptT ε (StateM σ) α} {post : Except ε α → σ → Prop}

lemma mono (h : Meets x pre mid) (hpre : ∀ s, pre' s → pre s) (hps : ∀ r s, mid r s → post r s) : Meets x pre' post :=
  fun s hs => hps _ _ (h s (hpre s hs))

lemma of_pre (h : Meets x pre post) (hpre : ∀ s, pre' s → pre s) : Meets x pre' post := h.mono hpre fun _ _ hs => hs

lemma bind {post : Except ε β → σ → Prop} (hx : Meets x pre mid) (hf : ∀ a, Meets (f a) (mid (.ok a)) post)
    (her : ∀ e s, mid (.error e) s → post (.error e) s) : Meets (x >>= f) pre post := by
  intro s hs
  have hmid := hx s hs
  rw [step_bind_run]
  rcases hrun : x.run.run s with ⟨r, s'⟩
  rw [hrun] at hmid
  cases r with
  | ok a => exact hf a s' hmid
  | error e => exact her e s' hmid

lemma ret (a : α) (h : ∀ s, pre s → post (.ok a) s) : Meets (pure a) pre post := h

lemma refuse (e : ε) (h : ∀ s, pre s → post (.error e) s) : Meets (throw e) pre post := h

lemma read {f : σ → ExceptT ε (StateM σ) α} (h : ∀ s, pre s → Meets (f s) (· = s) post) : Meets (get >>= f) pre post :=
  fun s hs => h s hs s rfl

lemma ask (g : σ → α) (h : ∀ s, pre s → post (.ok (g s)) s) : Meets (get >>= fun s => pure (g s)) pre post := h

lemma write {post : Except ε PUnit → σ → Prop} {s' : σ} (h : ∀ s, pre s → post (.ok ⟨⟩) s') :
    Meets (set s') pre post := h

lemma change_bind {g : σ → σ} {f : PUnit → ExceptT ε (StateM σ) α}
    (h : Meets (f ⟨⟩) (fun s' => ∃ s, pre s ∧ s' = g s) post) : Meets (modify g >>= f) pre post :=
  fun s hs => h (g s) ⟨s, hs, rfl⟩

lemma lift_bind {r : Except ε β} {f : β → ExceptT ε (StateM σ) α} (hok : ∀ b, r = .ok b → Meets (f b) pre post)
    (her : ∀ e, r = .error e → ∀ s, pre s → post (.error e) s) : Meets (MonadExcept.ofExcept r >>= f) pre post := by
  cases r with
  | ok b => exact hok b rfl
  | error e => exact her e rfl

end Meets

/-- From every state of which `pre` holds, a step that answers leaves off in a state that is as
`post` says of its answer. -/
def Yields (x : ExceptT ε (StateM σ) α) (pre : σ → Prop) (post : α → σ → Prop) : Prop :=
  Meets x pre fun r s => ∀ a, r = .ok a → post a s

lemma Yields.bind {mid : α → σ → Prop} {post : β → σ → Prop} (hx : Yields x pre mid)
    (hf : ∀ a, Yields (f a) (mid a) post) : Yields (x >>= f) pre post :=
  Meets.bind hx (fun a => (hf a).of_pre fun _ hs => hs a rfl) fun _ _ _ _ hb => nomatch hb

lemma Yields.ret (a : α) (h : ∀ s, pre s → post a s) : Yields (pure a : ExceptT ε (StateM σ) α) pre post :=
  Meets.ret a fun s hs _ hb => Except.ok.inj hb ▸ h s hs

/-- A fact that does not depend on the state may be used throughout. -/
lemma Yields.given {fact : Prop} (h : fact → Yields x pre post) : Yields x (fact ∧ pre ·) post :=
  fun s hs => h hs.1 s hs.2

end TensorToolchain
